import Processx.Unix.ChildInit
import Processx.Connection.Chars
import Processx.Connection.ReadLines
import Processx.Connection.Raw
import Mathlib.Data.List.Count
import Mathlib.Data.List.Nodup

/-!
# Who closes the descriptors of the parent

`processx_exec()` opens descriptors for the parent and makes connections of them. A
connection closes its descriptor by its number, when it is closed and when it is finalized.
A pipe has one connection, a pty has two, so with a pty the same number is closed twice, and
the second time it may be somebody else's.
-/

namespace Processx

variable {σ : Type}

/-- What a descriptor number refers to: the end of a pipe or the pty that a call of
`processx_exec()` opened for the parent, or another file. -/
inductive ParentFile
  | pipe (call i : ℕ)
  | pty (call : ℕ)
  | other
  deriving DecidableEq

/-- A connection object, with the file that its descriptor was opened for. -/
structure ParentConnection (σ : Type) where
  ccon : Connection σ
  os : Os
  file : ParentFile
  closeOnDestroy : Bool := true
  finalized : Bool := false

/-- A connection that `processx__create_connections()` is still going to create. -/
structure PendingConnection where
  fd : ℕ
  encoding : String
  file : ParentFile
  deriving DecidableEq

/-- The descriptors and the connections of the R process. For each `close()` by a connection,
`closed` has the file of the connection and what the number referred to. -/
structure Parent (σ : Type) where
  fds : ℕ → Option ParentFile
  calls : ℕ
  pending : List PendingConnection
  connections : List (ParentConnection σ)
  closed : List (ParentFile × Option ParentFile)

/-- Before the first process. -/
def Parent.start (fds : ℕ → Option ParentFile) : Parent σ :=
  ⟨fun n => (fds n).map fun _ => .other, 0, [], [], []⟩

/-- The numbers that the operating system chooses: for the pty, for its other side unless that
cannot be opened, and for both ends of each socket pair. -/
structure ExecNumbers where
  ptyMain : ℕ
  ptyChild : Option ℕ
  pair : ℕ → ℕ × ℕ

/-- How a call goes on behind the socket pairs. -/
inductive ExecEnding
  /-- It throws after it has made this many of the socket pairs. -/
  | thrown (slots : ℕ)
  /-- `fork()` fails. -/
  | noFork
  /-- It reaches `processx__create_connections()`. -/
  | created

/-- The socket pairs from slot `i` on, with the files of their ends. -/
def socketpairFds (call : ℕ) (numbers : ExecNumbers) : ℕ → List Output → List (ℕ × ParentFile)
  | _, [] => []
  | i, output :: connections =>
    if output = .str "|" then
      ((numbers.pair i).1, .pipe call i) :: ((numbers.pair i).2, .other) ::
        socketpairFds call numbers (i + 1) connections
    else socketpairFds call numbers (i + 1) connections

/-- All the descriptors that are opened. -/
def openedFds (call : ℕ) (numbers : ExecNumbers) (pty : Bool) (connections : List Output) :
    List (ℕ × ParentFile) :=
  (if pty then (numbers.ptyMain, .pty call) :: numbers.ptyChild.toList.map fun n => (n, .other)
    else []) ++ socketpairFds call numbers 0 connections

/-- The table with new descriptors. -/
def openAll (fds : ℕ → Option ParentFile) (opened : List (ℕ × ParentFile)) :
    ℕ → Option ParentFile :=
  fun n => match opened.find? fun p => p.1 = n with
    | some (_, file) => some file
    | none => fds n

/-- The table after `close()` on some numbers. -/
def closeAll (fds : ℕ → Option ParentFile) (numbers : List ℕ) : ℕ → Option ParentFile :=
  fun n => if n ∈ numbers then none else fds n

/-- The parent's end of the pipe of slot `i`: `fd0`, `fd1` and `fd2` of the handle. -/
def parentFd (numbers : ExecNumbers) (connections : List Output) (i : ℕ) : Option ℕ :=
  if connections[i]? = some (.str "|") then some (numbers.pair i).1 else none

/-- The ends of the child, which the parent closes for the standard streams only. -/
def childFds (numbers : ExecNumbers) (connections : List Output) : List ℕ :=
  ((List.range 3).filter fun i => connections[i]? = some (.str "|")).map fun i => (numbers.pair i).2

/-- `processx__create_connections()`: the connections in the order of their creation. -/
def createConnections (call : ℕ) (numbers : ExecNumbers) (pty : Bool) (connections : List Output)
    (encoding : String) : List PendingConnection :=
  ((parentFd numbers connections 0).map fun fd => ⟨fd, encoding, .pipe call 0⟩).toList ++
  ((parentFd numbers connections 1).map fun fd => ⟨fd, encoding, .pipe call 1⟩).toList ++
  ((parentFd numbers connections 2).map fun fd => ⟨fd, encoding, .pipe call 2⟩).toList ++
  if pty then
    [⟨numbers.ptyMain, encoding, .pty call⟩, ⟨numbers.ptyMain, encoding, .pty call⟩]
  else []

/-- New descriptors get different numbers, none of which is in use. -/
def Unused (fds : ℕ → Option ParentFile) (opened : List (ℕ × ParentFile)) : Prop :=
  (opened.map Prod.fst).Nodup ∧ ∀ p ∈ opened, fds p.1 = none

instance (fds : ℕ → Option ParentFile) (opened : List (ℕ × ParentFile)) :
    Decidable (Unused fds opened) := inferInstanceAs (Decidable (_ ∧ _))

/-- The part of `processx_exec()` before the connections are created. -/
def Parent.exec (s : Parent σ) (pty : Bool) (connections : List Output) (encoding : String)
    (numbers : ExecNumbers) (ending : ExecEnding) : Parent σ :=
  let made := match ending with
    | .thrown slots => connections.take slots
    | _ => connections
  let call := s.calls
  let opened := openedFds call numbers pty made
  if Unused s.fds opened then
    let s := { s with fds := openAll s.fds opened, calls := call + 1 }
    match ending with
    | .thrown _ => s
    | .noFork => { s with fds := closeAll s.fds (if pty then [numbers.ptyMain] else []) }
    | .created =>
      { s with
        fds := closeAll s.fds (childFds numbers connections)
        pending := s.pending ++
          createConnections call numbers pty connections encoding }
  else s

/-- The next connection is created. -/
def Parent.create (s : Parent σ) (os : Os) : Parent σ :=
  match s.pending with
  | [] => s
  | new :: pending =>
    { s with
      pending := pending
      connections := s.connections ++
        [{ ccon := cConnectionCreateEncoding new.fd new.encoding, os := os, file := new.file }] }

/-- A call that reads or polls. -/
inductive ReadOp
  | chars (op : CharOp)
  | lines (op : LineOp)
  | bytes (nbytes : ℤ)

/-- The connection and the operating system after a read or a poll. -/
def ReadOp.run (ic : Riconv σ) (op : ReadOp) (ccon : Connection σ) (os : Os) : Connection σ × Os :=
  match op with
  | .chars op => (op.run ic ccon os).2
  | .lines op => (op.run ic ccon os).2
  | .bytes nbytes => (connectionReadBytes ic ccon os nbytes).2

/-- `processx_c_connection_close()` on the connection number `i`. -/
def Parent.closeConnection (s : Parent σ) (i : ℕ) (c : ParentConnection σ) : Parent σ :=
  let s := if c.ccon.handle ≥ 0 then
      { s with
        fds := closeAll s.fds [c.ccon.handle.toNat]
        closed := (c.file, s.fds c.ccon.handle.toNat) :: s.closed }
    else s
  { s with
    connections :=
      s.connections.set i { c with ccon := { c.ccon with handle := -1, isClosed := true } } }

/-- `processx_c_connection_destroy()` by the finalizer. -/
def Parent.destroyConnection (s : Parent σ) (i : ℕ) (c : ParentConnection σ) : Parent σ :=
  let s := if c.closeOnDestroy then s.closeConnection i c else s
  { s with connections := s.connections.modify i fun c =>
      { c with ccon := { c.ccon with isClosed := true }, finalized := true } }

/-- What can happen to the descriptors and the connections. -/
inductive ParentStep
  | exec (pty : Bool) (connections : List Output) (encoding : String) (numbers : ExecNumbers)
      (ending : ExecEnding)
  | create (os : Os)
  | read (i : ℕ) (op : ReadOp)
  | close (i : ℕ)
  | finalize (i : ℕ)
  | openOther (n : ℕ)
  | closeOther (n : ℕ)

/-- The connection number `i`, unless it is finalized already. -/
def Parent.live (s : Parent σ) (i : ℕ) : Option (ParentConnection σ) :=
  s.connections[i]?.filter fun c => !c.finalized

/-- One step. A step that cannot be taken changes nothing: a new descriptor gets a number that
is not in use, and others close only what is theirs. -/
def Parent.step (ic : Riconv σ) (s : Parent σ) : ParentStep → Parent σ
  | .exec pty connections encoding numbers ending => s.exec pty connections encoding numbers ending
  | .create os => s.create os
  | .read i op =>
    match s.live i with
    | some c =>
      let (ccon, os) := op.run ic c.ccon c.os
      { s with connections := s.connections.set i { c with ccon := ccon, os := os } }
    | none => s
  | .close i =>
    match s.live i with
    | some c => s.closeConnection i c
    | none => s
  | .finalize i =>
    match s.live i with
    | some c => s.destroyConnection i c
    | none => s
  | .openOther n => if s.fds n = none then { s with fds := openAll s.fds [(n, .other)] } else s
  | .closeOther n => if s.fds n = some .other then { s with fds := closeAll s.fds [n] } else s

/-- A sequence of steps. -/
def Parent.run (ic : Riconv σ) (s : Parent σ) (steps : List ParentStep) : Parent σ :=
  steps.foldl (Parent.step ic) s

/-- A connection closes only the file that it was created for, and each file is closed only
once. -/
def Parent.ClosesOwn (s : Parent σ) : Prop :=
  (∀ p ∈ s.closed, p.2 = some p.1) ∧ (s.closed.map Prod.fst).Nodup

/-- The connection number `i` does not share its pty with a connection that is closed. -/
def Parent.Apart (s : Parent σ) (i : ℕ) : Prop :=
  ∀ c call, s.live i = some c → c.ccon.isClosed = false → c.file = .pty call →
    ∀ c' ∈ s.connections, c'.file = .pty call → c'.ccon.isClosed = false

/-- No connection is closed or finalized behind the other one of its pty. -/
def ParentStep.Apart (s : Parent σ) : ParentStep → Prop
  | .close i | .finalize i => s.Apart i
  | _ => True

/-- The same for all the steps of a run. -/
def Parent.AllApart (ic : Riconv σ) : Parent σ → List ParentStep → Prop
  | _, [] => True
  | s, step :: steps => step.Apart s ∧ (s.step ic step).AllApart ic steps

/-- The same descriptor, and closed or not as before. -/
def SameHandle (ccon ccon' : Connection σ) : Prop :=
  ccon'.handle = ccon.handle ∧ ccon'.isClosed = ccon.isClosed

/-- Nothing is done to a connection. -/
theorem SameHandle.refl (ccon : Connection σ) : SameHandle ccon ccon := ⟨rfl, rfl⟩

/-- One operation after another. -/
theorem SameHandle.trans {c₁ c₂ c₃ : Connection σ} (h : SameHandle c₁ c₂) (h' : SameHandle c₂ c₃) :
    SameHandle c₁ c₃ := ⟨h'.1.trans h.1, h'.2.trans h.2⟩

/-- A conversion leaves the descriptor alone. -/
theorem connectionToUtf8_sameHandle (ic : Riconv σ) (ccon : Connection σ) :
    SameHandle ccon (connectionToUtf8 ic ccon).2 := by
  unfold connectionToUtf8
  dsimp only
  split <;> exact ⟨rfl, rfl⟩

/-- So does one of new bytes. -/
theorem convertNew_sameHandle (ic : Riconv σ) (ccon : Connection σ) :
    SameHandle ccon (convertNew ic ccon).2 := by
  unfold convertNew
  split
  · exact connectionToUtf8_sameHandle ic ccon
  · exact .refl ccon

/-- So does a read. -/
theorem connectionRead_sameHandle (ic : Riconv σ) (ccon : Connection σ) (os : Os) :
    SameHandle ccon (connectionRead ic ccon os).2.1 := by
  unfold connectionRead
  split
  · dsimp only
    split <;> exact ⟨rfl, rfl⟩
  obtain ⟨ccon₁, hccon₁, hsame⟩ : ∃ ccon₁,
      (if ccon.bufferAllocatedSize = 0 then connectionAlloc ccon else ccon) = ccon₁ ∧
        SameHandle ccon ccon₁ := by
    split <;> exact ⟨_, rfl, rfl, rfl⟩
  rw [hccon₁]
  dsimp only
  split
  · exact hsame.trans (connectionToUtf8_sameHandle ic ccon₁)
  split
  · refine hsame.trans (SameHandle.trans ?_ (convertNew_sameHandle ic _))
    split <;> exact ⟨rfl, rfl⟩
  · exact hsame.trans (convertNew_sameHandle ic ccon₁)
  · exact hsame.trans (convertNew_sameHandle ic (markEofRaw ccon₁))
  · exact hsame

/-- So does the start of a poll. -/
theorem prePollConnection_sameHandle (ic : Riconv σ) (ccon : Connection σ) :
    SameHandle ccon (prePollConnection ic ccon).2 := by
  have hconvert := connectionToUtf8_sameHandle ic ccon
  unfold prePollConnection
  dsimp only
  repeat' split
  all_goals first | exact .refl ccon | exact hconvert

/-- So does a look for characters. -/
theorem connectionFindChars_sameHandle (ic : Riconv σ) (ccon : Connection σ) (os : Os)
    (maxchars maxbytes : ℤ) :
    SameHandle ccon (connectionFindChars ic ccon os maxchars maxbytes).2.1 := by
  have hread : SameHandle ccon (if !ccon.isEof ∧ ccon.utf8.length = 0 then connectionRead ic ccon os
      else (.ok 0, ccon, os)).2.1 := by
    split
    · exact connectionRead_sameHandle ic ccon os
    · exact .refl ccon
  unfold connectionFindChars
  split
  · exact .refl ccon
  dsimp only
  split
  · rename_i heq
    rwa [heq] at hread
  · rename_i heq
    rw [heq] at hread
    split <;> exact hread

/-- So does a read of characters. -/
theorem connectionReadChars_sameHandle (ic : Riconv σ) (ccon : Connection σ) (os : Os)
    (nchars : ℤ) : SameHandle ccon (connectionReadChars ic ccon os nchars).2.1 := by
  have hfind := connectionFindChars_sameHandle ic ccon os nchars (-1)
  unfold connectionReadChars
  split
  · rename_i heq
    rwa [heq] at hfind
  · rename_i heq
    rw [heq] at hfind
    split <;> exact hfind

/-- So does one of the C API. -/
theorem cConnectionReadChars_sameHandle (ic : Riconv σ) (ccon : Connection σ) (os : Os)
    (nbyte : ℕ) : SameHandle ccon (cConnectionReadChars ic ccon os nbyte).2.1 := by
  have hfind := connectionFindChars_sameHandle ic ccon os (-1) nbyte
  unfold cConnectionReadChars
  split
  · exact .refl ccon
  split
  · rename_i heq
    rwa [heq] at hfind
  · rename_i heq
    rw [heq] at hfind
    exact hfind

/-- So does the loop that looks for a line feed. -/
theorem readUntilNewlineLoop_sameHandle (ic : Riconv σ) (fuel : ℕ) (ccon : Connection σ) (os : Os)
    (ptr end_ : ℕ) : SameHandle ccon (readUntilNewlineLoop ic fuel ccon os ptr end_).2.1 := by
  induction fuel generalizing ccon os ptr with
  | zero => exact .refl ccon
  | succ fuel ih =>
    unfold readUntilNewlineLoop
    dsimp only
    generalize ((((ccon.utf8.take end_).drop ptr).idxOf? lineFeed).map (ptr + ·)).getD end_ = ptr'
    split
    · exact .refl ccon
    split
    · exact .refl ccon
    obtain ⟨ccon₁, hccon₁, hsame⟩ : ∃ ccon₁,
        (if ccon.utf8.length ≥ ccon.utf8AllocatedSize - 8 then connectionRealloc ccon
          else ccon) = ccon₁ ∧ SameHandle ccon ccon₁ := by
      split <;> exact ⟨_, rfl, rfl, rfl⟩
    rw [hccon₁]
    have hread := connectionRead_sameHandle ic ccon₁ os
    split
    · rename_i heq
      rw [heq] at hread
      exact hsame.trans hread
    · rename_i heq
      rw [heq] at hread
      split
      · exact hsame.trans hread
      · exact (hsame.trans hread).trans (ih _ _ _)

/-- So does the look for a line feed. -/
theorem connectionReadUntilNewline_sameHandle (ic : Riconv σ) (ccon : Connection σ) (os : Os) :
    SameHandle ccon (connectionReadUntilNewline ic ccon os).2.1 := by
  have hread : SameHandle ccon (if ccon.utf8.length = 0 then connectionRead ic ccon os
      else (.ok 0, ccon, os)).2.1 := by
    split
    · exact connectionRead_sameHandle ic ccon os
    · exact .refl ccon
  unfold connectionReadUntilNewline
  split
  · rename_i heq
    rwa [heq] at hread
  · rename_i heq
    rw [heq] at hread
    split
    · exact hread
    · exact hread.trans (readUntilNewlineLoop_sameHandle ic _ _ _ _ _)

/-- So does a read of lines. -/
theorem connectionReadLines_sameHandle (ic : Riconv σ) (ccon : Connection σ) (os : Os)
    (nlines : ℤ) : SameHandle ccon (connectionReadLines ic ccon os nlines).2.1 := by
  have hfind : SameHandle ccon (connectionFindLines ic ccon os nlines).2.1 := by
    have hnewline := connectionReadUntilNewline_sameHandle ic ccon os
    unfold connectionFindLines
    dsimp only
    split
    · exact .refl ccon
    split
    · rename_i heq
      rwa [heq] at hnewline
    · rename_i heq
      rwa [heq] at hnewline
  unfold connectionReadLines
  split
  · rename_i heq
    rwa [heq] at hfind
  · rename_i heq
    rw [heq] at hfind
    split <;> exact hfind

/-- So does a read of bytes. -/
theorem connectionReadBytes_sameHandle (ic : Riconv σ) (ccon : Connection σ) (os : Os)
    (nbytes : ℤ) : SameHandle ccon (connectionReadBytes ic ccon os nbytes).2.1 := by
  have hread : SameHandle ccon (if ccon.buffer.length = 0 ∧ !ccon.isEofRaw then
      connectionRead ic { ccon with rawMode := true } os
      else (.ok 0, { ccon with rawMode := true }, os)).2.1 := by
    split
    · exact SameHandle.trans ⟨rfl, rfl⟩ (connectionRead_sameHandle ic _ os)
    · exact ⟨rfl, rfl⟩
  unfold connectionReadBytes
  split
  · exact .refl ccon
  dsimp only
  split
  · rename_i heq
    rwa [heq] at hread
  · rename_i heq
    rw [heq] at hread
    refine hread.trans ?_
    split <;> exact ⟨rfl, rfl⟩

/-- No read changes the descriptor of a connection or closes it. -/
theorem ReadOp.run_sameHandle (ic : Riconv σ) (op : ReadOp) (ccon : Connection σ) (os : Os) :
    SameHandle ccon (op.run ic ccon os).1 := by
  cases op with
  | chars op =>
    cases op with
    | readChars nchars => exact connectionReadChars_sameHandle ic ccon os nchars
    | cReadChars nbyte => exact cConnectionReadChars_sameHandle ic ccon os nbyte
    | poll => exact prePollConnection_sameHandle ic ccon
  | lines op =>
    cases op with
    | readLines nlines => exact connectionReadLines_sameHandle ic ccon os nlines
    | poll => exact prePollConnection_sameHandle ic ccon
  | bytes nbytes => exact connectionReadBytes_sameHandle ic ccon os nbytes

/-- A file that one of the first `calls` calls has opened. -/
def ParentFile.OpenedBefore (calls : ℕ) : ParentFile → Prop
  | .pipe call _ | .pty call => call < calls
  | .other => False

/-- The files of the connections, of those to be created as well. -/
def Parent.files (s : Parent σ) : List ParentFile :=
  s.connections.map ParentConnection.file ++ s.pending.map PendingConnection.file

/-- The files that a connection has closed. -/
def Parent.closedFiles (s : Parent σ) : List ParentFile := s.closed.map Prod.fst

/-- What holds in every run. As long as the connections have closed only what is their own, the
number of a connection refers to its file until that file is closed. -/
structure Parent.Keeps (s : Parent σ) : Prop where
  openHandle : ∀ c ∈ s.connections, c.ccon.isClosed = false → 0 ≤ c.ccon.handle
  closedHandle : ∀ c ∈ s.connections, c.ccon.isClosed = true → c.ccon.handle = -1
  onDestroy : ∀ c ∈ s.connections, c.closeOnDestroy = true
  opened : ∀ file ∈ s.files, file.OpenedBefore s.calls
  once : ∀ call i, s.files.count (.pipe call i) ≤ 1
  closed_iff : ∀ file, file ∈ s.closedFiles ↔
    ∃ c ∈ s.connections, c.file = file ∧ c.ccon.isClosed = true
  held : s.ClosesOwn → ∀ c ∈ s.connections, c.ccon.isClosed = false → c.file ∉ s.closedFiles →
    s.fds c.ccon.handle.toNat = some c.file
  heldPending : s.ClosesOwn → ∀ p ∈ s.pending, p.file ∉ s.closedFiles → s.fds p.fd = some p.file

/-- A session without connections. -/
theorem Parent.keeps_start (fds : ℕ → Option ParentFile) : (Parent.start fds : Parent σ).Keeps where
  openHandle _ hc := absurd hc List.not_mem_nil
  closedHandle _ hc := absurd hc List.not_mem_nil
  onDestroy _ hc := absurd hc List.not_mem_nil
  opened _ hfile := absurd hfile List.not_mem_nil
  once _ _ := Nat.zero_le 1
  closed_iff _ := ⟨fun h => absurd h List.not_mem_nil, fun ⟨_, hc, _⟩ => absurd hc List.not_mem_nil⟩
  held _ _ hc := absurd hc List.not_mem_nil
  heldPending _ _ hp := absurd hp List.not_mem_nil

/-- A file that a call has opened is not one of somebody else. -/
theorem ParentFile.OpenedBefore.ne_other {calls : ℕ} {file : ParentFile}
    (h : file.OpenedBefore calls) : file ≠ .other := by
  rintro rfl
  exact h

/-- A file that was opened before a call was opened before any later one. -/
theorem ParentFile.OpenedBefore.mono {calls calls' : ℕ} {file : ParentFile}
    (h : file.OpenedBefore calls) (hle : calls ≤ calls') : file.OpenedBefore calls' := by
  cases file with
  | pipe call i => exact Nat.lt_of_lt_of_le h hle
  | pty call => exact Nat.lt_of_lt_of_le h hle
  | other => exact h

/-- A connection that keeps its file changes nothing in the list of files. -/
theorem Parent.files_eq_of_set {s : Parent σ} {i : ℕ} {c c' : ParentConnection σ}
    (hc : s.connections[i]? = some c) (hfile : c'.file = c.file) :
    (s.connections.set i c').map ParentConnection.file =
      s.connections.map ParentConnection.file := by
  rw [List.map_set, hfile]
  refine List.ext_getElem? fun j => ?_
  rw [List.getElem?_set]
  split_ifs with hij hlt
  · subst hij
    rw [List.getElem?_map, hc]
    rfl
  · subst hij
    rw [List.getElem?_eq_none (by omega)]
  · rfl

/-- A number that is not closed. -/
theorem closeAll_of_notMem {fds : ℕ → Option ParentFile} {numbers : List ℕ} {n : ℕ}
    (h : n ∉ numbers) : closeAll fds numbers n = fds n :=
  if_neg h

/-- A number with another file than the one that is closed. -/
theorem closeAll_of_ne {fds : ℕ → Option ParentFile} {m n : ℕ} {file closed : ParentFile}
    (hn : fds n = some file) (hm : fds m = some closed) (hne : file ≠ closed) :
    closeAll fds [m] n = some file := by
  refine (closeAll_of_notMem fun hmem => ?_).trans hn
  rw [List.mem_singleton.mp hmem, hm] at hn
  exact hne (Option.some.inj hn).symm

/-- A property of all elements and of a new one. -/
theorem forall_mem_set {α : Type} {P : α → Prop} {l : List α} {x : α} (hl : ∀ a ∈ l, P a)
    (hx : P x) (i : ℕ) : ∀ a ∈ l.set i x, P a := by
  intro a ha
  rcases List.mem_or_eq_of_mem_set ha with hmem | rfl
  · exact hl a hmem
  · exact hx

/-- Another element stays when one is replaced. -/
theorem mem_set_of_ne {α : Type} {l : List α} {i : ℕ} {a b : α} (hb : b ∈ l) (ha : l[i]? = some a)
    (hne : b ≠ a) (x : α) : b ∈ l.set i x := by
  obtain ⟨j, hj⟩ := List.mem_iff_getElem?.mp hb
  refine List.mem_iff_getElem?.mpr ⟨j, ?_⟩
  have hij : i ≠ j := by
    rintro rfl
    rw [ha] at hj
    exact hne (Option.some.inj hj).symm
  rw [List.getElem?_set_ne hij, hj]

/-- An element that is mapped to something that occurs once is the only one. -/
theorem eq_of_count_le_one {α β : Type} [DecidableEq β] {f : α → β} {l : List α} {a b : α}
    (ha : a ∈ l) (hb : b ∈ l) (hab : f a = f b) (hcount : (l.map f).count (f a) ≤ 1) : a = b := by
  induction l with
  | nil => exact absurd ha List.not_mem_nil
  | cons x l ih =>
    have hrest : ∀ y ∈ l, f y = f a → 0 < (l.map f).count (f a) := fun y hy hya =>
      List.count_pos_iff.mpr (hya ▸ List.mem_map_of_mem hy)
    rw [List.map_cons, List.count_cons] at hcount
    rcases List.mem_cons.mp ha with rfl | ha'
    · rcases List.mem_cons.mp hb with rfl | hb'
      · rfl
      · have := hrest b hb' hab.symm
        simp at hcount
        omega
    · rcases List.mem_cons.mp hb with rfl | hb'
      · have := hrest a ha' rfl
        simp [hab] at hcount
        rw [hab] at this
        omega
      · exact ih ha' hb' (by omega)

/-- The connections keep what they have when descriptors of others are opened or closed. -/
theorem Parent.Keeps.of_fds {s s' : Parent σ} (h : s.Keeps)
    (hconnections : s'.connections = s.connections) (hpending : s'.pending = s.pending)
    (hclosed : s'.closed = s.closed) (hcalls : s.calls ≤ s'.calls)
    (hfds : ∀ n file, s.fds n = some file → file ≠ .other → s'.fds n = some file) :
    s'.Keeps := by
  have hfiles : s'.files = s.files := by rw [Parent.files, Parent.files, hconnections, hpending]
  have hclosedFiles : s'.closedFiles = s.closedFiles := by
    rw [Parent.closedFiles, Parent.closedFiles, hclosed]
  have hown : s'.ClosesOwn ↔ s.ClosesOwn := by rw [Parent.ClosesOwn, Parent.ClosesOwn, hclosed]
  refine ⟨?_, ?_, ?_, ?_, ?_, ?_, ?_, ?_⟩
  · rw [hconnections]
    exact h.openHandle
  · rw [hconnections]
    exact h.closedHandle
  · rw [hconnections]
    exact h.onDestroy
  · rw [hfiles]
    exact fun file hfile => (h.opened file hfile).mono hcalls
  · rw [hfiles]
    exact h.once
  · rw [hclosedFiles, hconnections]
    exact h.closed_iff
  · rw [hown, hclosedFiles, hconnections]
    intro hs c hc hopen hfile
    have hmem : c.file ∈ s.files := List.mem_append_left _ (List.mem_map_of_mem hc)
    exact hfds _ _ (h.held hs c hc hopen hfile) (h.opened _ hmem).ne_other
  · rw [hown, hclosedFiles, hpending]
    intro hs p hp hfile
    have hmem : p.file ∈ s.files := List.mem_append_right _ (List.mem_map_of_mem hp)
    exact hfds _ _ (h.heldPending hs p hp hfile) (h.opened _ hmem).ne_other

/-- A connection is replaced by one with the same descriptor and the same file. -/
theorem Parent.Keeps.set {s : Parent σ} (h : s.Keeps) {i : ℕ} {c c' : ParentConnection σ}
    (hc : s.connections[i]? = some c) (hfile : c'.file = c.file)
    (honDestroy : c'.closeOnDestroy = c.closeOnDestroy) (hsame : SameHandle c.ccon c'.ccon) :
    ({ s with connections := s.connections.set i c' } : Parent σ).Keeps := by
  have hmem : c ∈ s.connections := List.mem_of_getElem? hc
  have hlt : i < s.connections.length := (List.getElem?_eq_some_iff.mp hc).1
  have hmem' : c' ∈ s.connections.set i c' := List.mem_set hlt c'
  have hfiles : ({ s with connections := s.connections.set i c' } : Parent σ).files = s.files := by
    rw [Parent.files, Parent.files_eq_of_set hc hfile]
    rfl
  refine ⟨?_, ?_, ?_, ?_, ?_, ?_, ?_, h.heldPending⟩
  · refine forall_mem_set h.openHandle (fun hopen => ?_) i
    rw [hsame.1]
    exact h.openHandle c hmem (hsame.2 ▸ hopen)
  · refine forall_mem_set h.closedHandle (fun hclosed => ?_) i
    rw [hsame.1]
    exact h.closedHandle c hmem (hsame.2 ▸ hclosed)
  · exact forall_mem_set h.onDestroy (honDestroy.trans (h.onDestroy c hmem)) i
  · rw [hfiles]
    exact h.opened
  · rw [hfiles]
    exact h.once
  · intro file
    refine (h.closed_iff file).trans ⟨?_, ?_⟩
    · rintro ⟨d, hd, hdfile, hclosed⟩
      by_cases hdc : d = c
      · subst hdc
        exact ⟨c', hmem', hfile.trans hdfile, hsame.2.trans hclosed⟩
      · exact ⟨d, mem_set_of_ne hd hc hdc c', hdfile, hclosed⟩
    · rintro ⟨d, hd, hdfile, hclosed⟩
      rcases List.mem_or_eq_of_mem_set hd with hd | rfl
      · exact ⟨d, hd, hdfile, hclosed⟩
      · exact ⟨c, hmem, hfile.symm.trans hdfile, hsame.2.symm.trans hclosed⟩
  · intro hs
    refine forall_mem_set (h.held hs) (fun hopen hdfile => ?_) i
    rw [hsame.1, hfile]
    exact h.held hs c hmem (hsame.2 ▸ hopen) (hfile ▸ hdfile)

/-- The next connection takes over what was pending. -/
theorem Parent.Keeps.create {s : Parent σ} (h : s.Keeps) (os : Os) : (s.create os).Keeps := by
  unfold Parent.create
  split
  · exact h
  rename_i new pending hpending
  have hnew : new ∈ s.pending := hpending ▸ List.mem_cons_self
  have hfiles : ∀ c : ParentConnection σ, c.file = new.file →
      ({ s with pending := pending, connections := s.connections ++ [c] } : Parent σ).files =
        s.files := by
    intro c hc
    rw [Parent.files, Parent.files, hpending, List.map_append, List.append_assoc]
    simp [hc]
  refine ⟨?_, ?_, ?_, ?_, ?_, ?_, ?_, ?_⟩
  · intro c hc hopen
    rcases List.mem_append.mp hc with hc | hc
    · exact h.openHandle c hc hopen
    · rw [List.mem_singleton.mp hc]
      exact Int.natCast_nonneg new.fd
  · intro c hc hclosed
    rcases List.mem_append.mp hc with hc | hc
    · exact h.closedHandle c hc hclosed
    · rw [List.mem_singleton.mp hc] at hclosed
      cases hclosed
  · intro c hc
    rcases List.mem_append.mp hc with hc | hc
    · exact h.onDestroy c hc
    · rw [List.mem_singleton.mp hc]
  · rw [hfiles _ rfl]
    exact h.opened
  · rw [hfiles _ rfl]
    exact h.once
  · intro file
    refine (h.closed_iff file).trans ⟨?_, ?_⟩
    · rintro ⟨d, hd, hrest⟩
      exact ⟨d, List.mem_append_left _ hd, hrest⟩
    · rintro ⟨d, hd, hdfile, hclosed⟩
      rcases List.mem_append.mp hd with hd | hd
      · exact ⟨d, hd, hdfile, hclosed⟩
      · rw [List.mem_singleton.mp hd] at hclosed
        cases hclosed
  · intro hs c hc hopen hfile
    rcases List.mem_append.mp hc with hc | hc
    · exact h.held hs c hc hopen hfile
    · rw [List.mem_singleton.mp hc] at hfile ⊢
      exact h.heldPending hs new hnew hfile
  · intro hs p hp
    exact h.heldPending hs p (hpending ▸ List.mem_cons_of_mem _ hp)

/-- Where the table has not changed. -/
theorem openAll_of_used {fds : ℕ → Option ParentFile} {opened : List (ℕ × ParentFile)}
    (hunused : Unused fds opened) {n : ℕ} {file : ParentFile} (hn : fds n = some file) :
    n ∉ opened.map Prod.fst ∧ openAll fds opened n = some file := by
  have hnot : n ∉ opened.map Prod.fst := by
    intro hmem
    obtain ⟨p, hp, rfl⟩ := List.mem_map.mp hmem
    rw [hunused.2 p hp] at hn
    cases hn
  have hnone : opened.find? (fun p => p.1 = n) = none :=
    List.find?_eq_none.mpr fun p hp heq => hnot (List.mem_map.mpr ⟨p, hp, by simpa using heq⟩)
  exact ⟨hnot, by rw [openAll, hnone]; exact hn⟩

/-- Where it has. -/
theorem openAll_of_mem {fds : ℕ → Option ParentFile} {opened : List (ℕ × ParentFile)}
    (hunused : Unused fds opened) {n : ℕ} {file : ParentFile} (h : (n, file) ∈ opened) :
    openAll fds opened n = some file := by
  cases hfind : opened.find? (fun p => p.1 = n) with
  | none => exact absurd (by simp) (List.find?_eq_none.mp hfind _ h)
  | some q =>
    have hq : q.1 = n := by simpa using List.find?_some hfind
    have heq := List.inj_on_of_nodup_map hunused.1 (List.mem_of_find?_eq_some hfind) h hq
    rw [openAll, hfind, heq]

/-- Both ends of the pipe for an output are among the descriptors of the call. -/
theorem mem_socketpairFds (call : ℕ) (numbers : ExecNumbers) {connections : List Output} {k : ℕ}
    (h : connections[k]? = some (.str "|")) (i : ℕ) :
    ((numbers.pair (i + k)).1, .pipe call (i + k)) ∈ socketpairFds call numbers i connections ∧
      ((numbers.pair (i + k)).2, .other) ∈ socketpairFds call numbers i connections := by
  induction connections generalizing i k with
  | nil => simp at h
  | cons output connections ih =>
    rw [socketpairFds]
    cases k with
    | zero =>
      rw [List.getElem?_cons_zero, Option.some.injEq] at h
      simp [h]
    | succ k =>
      rw [List.getElem?_cons_succ] at h
      obtain ⟨hparent, hchild⟩ := ih h (i + 1)
      rw [show i + 1 + k = i + (k + 1) by omega] at hparent hchild
      split
      · exact ⟨by simp [hparent], by simp [hchild]⟩
      · exact ⟨hparent, hchild⟩

/-- The ends that the parent closes are those it has opened for the child. -/
theorem childFds_opened (call : ℕ) (numbers : ExecNumbers) (pty : Bool) {connections : List Output}
    {n : ℕ} (hn : n ∈ childFds numbers connections) :
    (n, .other) ∈ openedFds call numbers pty connections := by
  obtain ⟨i, hi, rfl⟩ := List.mem_map.mp hn
  have hpipe : connections[i]? = some (.str "|") := by simpa using (List.mem_filter.mp hi).2
  refine List.mem_append_right _ ?_
  have hmem := (mem_socketpairFds call numbers hpipe 0).2
  rwa [Nat.zero_add] at hmem

/-- Each new connection gets a file that was opened for the parent by this call. -/
theorem createConnections_opened {call : ℕ} {numbers : ExecNumbers} {pty : Bool}
    {connections : List Output} {encoding : String} {p : PendingConnection}
    (hp : p ∈ createConnections call numbers pty connections encoding) :
    (p.fd, p.file) ∈ openedFds call numbers pty connections ∧
      p.file.OpenedBefore (call + 1) ∧ ¬ p.file.OpenedBefore call := by
  have hpipe : ∀ i, p ∈ ((parentFd numbers connections i).map fun fd =>
      (⟨fd, encoding, .pipe call i⟩ : PendingConnection)).toList →
      (p.fd, p.file) ∈ openedFds call numbers pty connections ∧
        p.file.OpenedBefore (call + 1) ∧ ¬ p.file.OpenedBefore call := by
    intro i hi
    obtain ⟨fd, hfd, rfl⟩ := Option.map_eq_some_iff.mp (Option.mem_toList.mp hi)
    rw [parentFd] at hfd
    split at hfd
    · rename_i hslot
      obtain rfl := Option.some.inj hfd
      refine ⟨List.mem_append_right _ ?_, Nat.lt_succ_self call, Nat.lt_irrefl call⟩
      have hmem := (mem_socketpairFds call numbers hslot 0).1
      rwa [Nat.zero_add] at hmem
    · cases hfd
  rw [createConnections] at hp
  rcases List.mem_append.mp hp with hp | hp
  · rcases List.mem_append.mp hp with hp | hp
    · rcases List.mem_append.mp hp with hp | hp
      · exact hpipe 0 hp
      · exact hpipe 1 hp
    · exact hpipe 2 hp
  · cases pty with
    | false => exact absurd hp List.not_mem_nil
    | true =>
      have hptyConnection : p = ⟨numbers.ptyMain, encoding, .pty call⟩ := by simpa using hp
      subst hptyConnection
      exact ⟨List.mem_append_left _ List.mem_cons_self, Nat.lt_succ_self call, Nat.lt_irrefl call⟩

/-- No pipe gets two connections. -/
theorem createConnections_once (call : ℕ) (numbers : ExecNumbers) (pty : Bool)
    (connections : List Output) (encoding : String) (call' i : ℕ) :
    ((createConnections call numbers pty connections encoding).map PendingConnection.file).count
      (.pipe call' i) ≤ 1 := by
  have hslot : ∀ (fd : Option ℕ) (k : ℕ), ((fd.map fun fd =>
      (⟨fd, encoding, .pipe call k⟩ : PendingConnection)).toList.map PendingConnection.file).count
        (.pipe call' i) ≤ if i = k then 1 else 0 := by
    intro fd k
    cases fd with
    | none => simp
    | some fd =>
      by_cases hik : i = k
      · rw [if_pos hik]
        exact List.count_le_length
      · simp [Ne.symm hik]
  have hpty : ((if pty then [⟨numbers.ptyMain, encoding, .pty call⟩,
      ⟨numbers.ptyMain, encoding, .pty call⟩] else []).map PendingConnection.file).count
        (.pipe call' i) = 0 := by
    cases pty <;> simp
  have h0 := hslot (parentFd numbers connections 0) 0
  have h1 := hslot (parentFd numbers connections 1) 1
  have h2 := hslot (parentFd numbers connections 2) 2
  rw [createConnections]
  simp only [List.map_append, List.count_append, hpty]
  split_ifs at h0 h1 h2 <;> omega

/-- New connections are waiting to be created. -/
theorem Parent.Keeps.append_pending {s : Parent σ} (h : s.Keeps) {new : List PendingConnection}
    (hopened : ∀ p ∈ new, p.file.OpenedBefore s.calls)
    (honce : ∀ call i, (s.files ++ new.map PendingConnection.file).count (.pipe call i) ≤ 1)
    (hheld : ∀ p ∈ new, s.fds p.fd = some p.file) :
    ({ s with pending := s.pending ++ new } : Parent σ).Keeps := by
  have hfiles : ({ s with pending := s.pending ++ new } : Parent σ).files =
      s.files ++ new.map PendingConnection.file := by
    simp [Parent.files]
  refine ⟨h.openHandle, h.closedHandle, h.onDestroy, ?_, ?_, h.closed_iff, h.held, ?_⟩
  · intro file hfile
    rw [hfiles] at hfile
    rcases List.mem_append.mp hfile with hfile | hfile
    · exact h.opened file hfile
    · obtain ⟨p, hp, rfl⟩ := List.mem_map.mp hfile
      exact hopened p hp
  · rw [hfiles]
    exact honce
  · intro hs p hp hfile
    rcases List.mem_append.mp hp with hp | hp
    · exact h.heldPending hs p hp hfile
    · exact hheld p hp

/-- A call of `processx_exec()`, however it ends. -/
theorem Parent.Keeps.exec {s : Parent σ} (h : s.Keeps) (pty : Bool) (connections : List Output)
    (encoding : String) (numbers : ExecNumbers) (ending : ExecEnding) :
    (s.exec pty connections encoding numbers ending).Keeps ∧
      (s.exec pty connections encoding numbers ending).closed = s.closed := by
  cases ending with
  | thrown slots =>
    unfold Parent.exec
    dsimp only
    split
    · rename_i hunused
      refine ⟨h.of_fds rfl rfl rfl (Nat.le_succ _) fun n file hn _ => ?_, rfl⟩
      exact (openAll_of_used hunused hn).2
    · exact ⟨h, rfl⟩
  | noFork =>
    unfold Parent.exec
    dsimp only
    split
    · rename_i hunused
      refine ⟨h.of_fds rfl rfl rfl (Nat.le_succ _) fun n file hn _ => ?_, rfl⟩
      obtain ⟨hnot, hsame⟩ := openAll_of_used hunused hn
      have hclosed : n ∉ if pty then [numbers.ptyMain] else [] := by
        cases pty with
        | false => exact List.not_mem_nil
        | true =>
          intro hmem
          rw [List.mem_singleton.mp hmem] at hnot
          exact hnot (by simp [openedFds])
      exact (closeAll_of_notMem hclosed).trans hsame
    · exact ⟨h, rfl⟩
  | created =>
    unfold Parent.exec
    dsimp only
    split
    · rename_i hunused
      refine ⟨?_, rfl⟩
      have hfds : (⟨closeAll (openAll s.fds (openedFds s.calls numbers pty connections))
          (childFds numbers connections), s.calls + 1, s.pending, s.connections, s.closed⟩ :
            Parent σ).Keeps := by
        refine h.of_fds rfl rfl rfl (Nat.le_succ _) fun n file hn _ => ?_
        obtain ⟨hnot, hsame⟩ := openAll_of_used hunused hn
        refine (closeAll_of_notMem fun hchild => ?_).trans hsame
        exact hnot (List.mem_map_of_mem (childFds_opened s.calls numbers pty hchild))
      refine hfds.append_pending ?_ ?_ ?_
      · exact fun p hp => (createConnections_opened hp).2.1
      · intro call i
        have hold : s.files.count (.pipe call i) ≤ 1 := h.once call i
        have hnew := createConnections_once s.calls numbers pty connections encoding call i
        rw [List.count_append]
        by_cases hmem : ParentFile.pipe call i ∈
            (createConnections s.calls numbers pty connections encoding).map PendingConnection.file
        · obtain ⟨p, hp, hfile⟩ := List.mem_map.mp hmem
          have hnone : ParentFile.pipe call i ∉ s.files := fun hfiles =>
            (createConnections_opened hp).2.2 (hfile ▸ h.opened _ hfiles)
          have hzero : s.files.count (.pipe call i) = 0 := List.count_eq_zero.mpr hnone
          show s.files.count _ + _ ≤ 1
          omega
        · have hzero := List.count_eq_zero.mpr hmem
          show s.files.count _ + _ ≤ 1
          omega
      · intro p hp
        obtain ⟨hmem, hbefore, -⟩ := createConnections_opened hp
        have hopen := openAll_of_mem hunused hmem
        refine (closeAll_of_notMem fun hchild => ?_).trans hopen
        have hother := openAll_of_mem hunused (childFds_opened s.calls numbers pty hchild)
        rw [hopen] at hother
        exact hbefore.ne_other (Option.some.inj hother)
    · exact ⟨h, rfl⟩

/-- A connection that is not closed is one of the list. -/
theorem Parent.mem_of_live {s : Parent σ} {i : ℕ} {c : ParentConnection σ} (h : s.live i = some c) :
    s.connections[i]? = some c := by
  rw [Parent.live, Option.filter_eq_some_iff] at h
  exact h.1

/-- An open connection closes only its own if its file is still there. -/
theorem Parent.Keeps.closesOwn_closeConnection_iff {s : Parent σ} (h : s.Keeps) {i : ℕ}
    {c : ParentConnection σ} (hmem : c ∈ s.connections) (hopen : c.ccon.isClosed = false) :
    (s.closeConnection i c).ClosesOwn ↔ s.ClosesOwn ∧ c.file ∉ s.closedFiles := by
  unfold Parent.closeConnection Parent.ClosesOwn
  rw [if_pos (h.openHandle c hmem hopen)]
  simp only [List.mem_cons, List.map_cons, List.nodup_cons, forall_eq_or_imp]
  constructor
  · rintro ⟨⟨-, hall⟩, hnot, hnodup⟩
    exact ⟨⟨hall, hnodup⟩, hnot⟩
  · rintro ⟨⟨hall, hnodup⟩, hnot⟩
    exact ⟨⟨h.held ⟨hall, hnodup⟩ c hmem hopen hnot, hall⟩, hnot, hnodup⟩

/-- The file of an open connection goes only with the other connection of its pty. -/
theorem Parent.Keeps.notMem_closedFiles_iff {s : Parent σ} (h : s.Keeps) {i : ℕ}
    {c : ParentConnection σ} (hlive : s.live i = some c) (hopen : c.ccon.isClosed = false) :
    c.file ∉ s.closedFiles ↔ s.Apart i := by
  have hmem : c ∈ s.connections := List.mem_of_getElem? (Parent.mem_of_live hlive)
  constructor
  · intro hnot d call hd _ hpty d' hd' hfile'
    rw [hlive] at hd
    obtain rfl := Option.some.inj hd
    by_contra hd'closed
    refine hnot ((h.closed_iff _).mpr ⟨d', hd', hfile'.trans hpty.symm, by simpa using hd'closed⟩)
  · intro hapart hin
    obtain ⟨d, hd, hdfile, hdclosed⟩ := (h.closed_iff _).mp hin
    cases hcfile : c.file with
    | pipe call j =>
      -- a pipe has only one connection
      have hcount : (s.connections.map ParentConnection.file).count c.file ≤ 1 := by
        have honce := h.once call j
        rw [Parent.files, List.count_append, ← hcfile] at honce
        omega
      have heq := eq_of_count_le_one hmem hd hdfile.symm hcount
      rw [← heq, hopen] at hdclosed
      cases hdclosed
    | pty call =>
      have hdopen := hapart c call hlive hopen hcfile d hd (hdfile.trans hcfile)
      rw [hdclosed] at hdopen
      cases hdopen
    | other =>
      have hfile := h.opened _ (List.mem_append_left _ (List.mem_map_of_mem hmem))
      rw [hcfile] at hfile
      exact hfile

/-- The file of an open connection is closed with it, and the others are still there. -/
theorem Parent.Keeps.closeOpen {s : Parent σ} (h : s.Keeps) {i : ℕ} {c : ParentConnection σ}
    (hc : s.connections[i]? = some c) (hopen : c.ccon.isClosed = false) :
    (s.closeConnection i c).Keeps := by
  have hmem : c ∈ s.connections := List.mem_of_getElem? hc
  have hlt : i < s.connections.length := (List.getElem?_eq_some_iff.mp hc).1
  have hown := h.closesOwn_closeConnection_iff (i := i) hmem hopen
  unfold Parent.closeConnection at hown ⊢
  rw [if_pos (h.openHandle c hmem hopen)] at hown ⊢
  set c' : ParentConnection σ := { c with ccon := { c.ccon with handle := -1, isClosed := true } }
    with hc'
  have hmem' : c' ∈ s.connections.set i c' := List.mem_set hlt c'
  have hfiles : (s.connections.set i c').map ParentConnection.file ++
      s.pending.map PendingConnection.file = s.files := by
    rw [Parent.files_eq_of_set hc (show c'.file = c.file from rfl)]
    rfl
  refine ⟨?_, ?_, ?_, ?_, ?_, ?_, ?_, ?_⟩
  · exact forall_mem_set h.openHandle (fun hset => by cases hset) i
  · exact forall_mem_set h.closedHandle (fun _ => rfl) i
  · exact forall_mem_set (x := c') h.onDestroy (h.onDestroy c hmem) i
  · exact fun file hmemFile => h.opened file (hfiles ▸ hmemFile)
  · intro call j
    show ((s.connections.set i c').map ParentConnection.file ++ _).count _ ≤ 1
    rw [hfiles]
    exact h.once call j
  · intro file
    show file ∈ c.file :: s.closedFiles ↔ _
    rw [List.mem_cons, h.closed_iff file]
    constructor
    · rintro (rfl | ⟨d, hd, hdfile, hdclosed⟩)
      · exact ⟨c', hmem', rfl, rfl⟩
      · have hne : d ≠ c := by
          rintro rfl
          rw [hopen] at hdclosed
          cases hdclosed
        exact ⟨d, mem_set_of_ne hd hc hne c', hdfile, hdclosed⟩
    · rintro ⟨d, hd, hdfile, hdclosed⟩
      rcases List.mem_or_eq_of_mem_set hd with hd | rfl
      · exact Or.inr ⟨d, hd, hdfile, hdclosed⟩
      · exact Or.inl hdfile.symm
  · intro hs
    obtain ⟨hbefore, hnot⟩ := hown.mp hs
    refine forall_mem_set (fun d hd hdopen hdfile => ?_) (fun hset => by cases hset) i
    obtain ⟨hne, hdfile⟩ := List.ne_and_not_mem_of_not_mem_cons hdfile
    exact closeAll_of_ne (h.held hbefore d hd hdopen hdfile) (h.held hbefore c hmem hopen hnot) hne
  · intro hs p hp hpfile
    obtain ⟨hbefore, hnot⟩ := hown.mp hs
    obtain ⟨hne, hpfile⟩ := List.ne_and_not_mem_of_not_mem_cons hpfile
    exact closeAll_of_ne (h.heldPending hbefore p hp hpfile) (h.held hbefore c hmem hopen hnot) hne

/-- An open connection closes its number: nothing but its own file goes, if that was there. -/
theorem Parent.Keeps.close {s : Parent σ} (h : s.Keeps) {i : ℕ} {c : ParentConnection σ}
    (hlive : s.live i = some c) :
    (s.closeConnection i c).Keeps ∧
      ((s.closeConnection i c).ClosesOwn ↔ s.ClosesOwn ∧ s.Apart i) := by
  have hc := Parent.mem_of_live hlive
  have hmem : c ∈ s.connections := List.mem_of_getElem? hc
  cases hclosed : c.ccon.isClosed with
  | true =>
    -- a closed connection has no number any more
    have hhandle := h.closedHandle c hmem hclosed
    have hnot : ¬ c.ccon.handle ≥ 0 := by omega
    unfold Parent.closeConnection
    rw [if_neg hnot]
    refine ⟨h.set hc rfl rfl ⟨hhandle.symm, hclosed.symm⟩, fun hown => ⟨hown, ?_⟩, And.left⟩
    intro d call hd hopen
    rw [hlive] at hd
    obtain rfl := Option.some.inj hd
    rw [hclosed] at hopen
    cases hopen
  | false =>
    have hown := h.closesOwn_closeConnection_iff (i := i) hmem hclosed
    rw [h.notMem_closedFiles_iff hlive hclosed] at hown
    exact ⟨h.closeOpen hc hclosed, hown⟩

/-- The finalizer closes as well. -/
theorem Parent.Keeps.destroy {s : Parent σ} (h : s.Keeps) {i : ℕ} {c : ParentConnection σ}
    (hlive : s.live i = some c) :
    (s.destroyConnection i c).Keeps ∧
      ((s.destroyConnection i c).ClosesOwn ↔ s.ClosesOwn ∧ s.Apart i) := by
  have hc := Parent.mem_of_live hlive
  obtain ⟨hkeeps, hown⟩ := h.close hlive
  have hdestroy : c.closeOnDestroy = true := h.onDestroy c (List.mem_of_getElem? hc)
  have hlt : i < s.connections.length := (List.getElem?_eq_some_iff.mp hc).1
  have hnow : (s.closeConnection i c).connections[i]? =
      some { c with ccon := { c.ccon with handle := -1, isClosed := true } } := by
    unfold Parent.closeConnection
    split <;> exact List.getElem?_set_self hlt
  unfold Parent.destroyConnection
  rw [if_pos hdestroy]
  refine ⟨?_, hown⟩
  dsimp only
  rw [List.modify_eq_set_getElem?, hnow]
  exact hkeeps.set hnow rfl rfl ⟨rfl, rfl⟩

/-- One step: it closes what is its own, if the connections did so before and the step does
not come behind the other connection of a pty. -/
theorem Parent.Keeps.step (ic : Riconv σ) {s : Parent σ} (h : s.Keeps) (step : ParentStep) :
    (s.step ic step).Keeps ∧ ((s.step ic step).ClosesOwn ↔ s.ClosesOwn ∧ step.Apart s) := by
  have hnone : ∀ i, s.live i = none → s.Apart i := by
    intro i hi c call hc
    rw [hi] at hc
    cases hc
  cases step with
  | exec pty connections encoding numbers ending =>
    obtain ⟨hkeeps, hclosed⟩ := h.exec pty connections encoding numbers ending
    refine ⟨hkeeps, ?_⟩
    show (s.exec pty connections encoding numbers ending).ClosesOwn ↔ s.ClosesOwn ∧ True
    rw [Parent.ClosesOwn, hclosed, and_true]
    rfl
  | create os =>
    refine ⟨h.create os, ?_⟩
    have hclosed : (s.create os).closed = s.closed := by
      unfold Parent.create
      split <;> rfl
    show (s.create os).ClosesOwn ↔ s.ClosesOwn ∧ True
    rw [Parent.ClosesOwn, hclosed, and_true]
    rfl
  | read i op =>
    show (Parent.step ic s (.read i op)).Keeps ∧ (_ ↔ s.ClosesOwn ∧ True)
    rw [and_true]
    unfold Parent.step
    dsimp only
    cases hlive : s.live i with
    | none => exact ⟨h, Iff.rfl⟩
    | some c =>
      exact ⟨h.set (Parent.mem_of_live hlive) rfl rfl (op.run_sameHandle ic c.ccon c.os), Iff.rfl⟩
  | close i =>
    show (Parent.step ic s (.close i)).Keeps ∧ (_ ↔ s.ClosesOwn ∧ s.Apart i)
    unfold Parent.step
    dsimp only
    cases hlive : s.live i with
    | none => exact ⟨h, (and_iff_left (hnone i hlive)).symm⟩
    | some c => exact h.close hlive
  | finalize i =>
    show (Parent.step ic s (.finalize i)).Keeps ∧ (_ ↔ s.ClosesOwn ∧ s.Apart i)
    unfold Parent.step
    dsimp only
    cases hlive : s.live i with
    | none => exact ⟨h, (and_iff_left (hnone i hlive)).symm⟩
    | some c => exact h.destroy hlive
  | openOther n =>
    show (Parent.step ic s (.openOther n)).Keeps ∧ (_ ↔ s.ClosesOwn ∧ True)
    rw [and_true]
    unfold Parent.step
    dsimp only
    split
    · rename_i hfree
      have hunused : Unused s.fds [(n, .other)] := ⟨List.nodup_singleton _, by simpa using hfree⟩
      exact ⟨h.of_fds rfl rfl rfl le_rfl fun m file hm _ => (openAll_of_used hunused hm).2, Iff.rfl⟩
    · exact ⟨h, Iff.rfl⟩
  | closeOther n =>
    show (Parent.step ic s (.closeOther n)).Keeps ∧ (_ ↔ s.ClosesOwn ∧ True)
    rw [and_true]
    unfold Parent.step
    dsimp only
    split
    · rename_i hother
      exact ⟨h.of_fds rfl rfl rfl le_rfl fun m file hm hne => closeAll_of_ne hm hother hne, Iff.rfl⟩
    · exact ⟨h, Iff.rfl⟩

/-- A run closes only its own files if and only if it did so far, and in each step that could do it
the numbers are apart. -/
theorem Parent.Keeps.run (ic : Riconv σ) (steps : List ParentStep) {s : Parent σ} (h : s.Keeps) :
    (s.run ic steps).ClosesOwn ↔ s.ClosesOwn ∧ s.AllApart ic steps := by
  induction steps generalizing s with
  | nil => exact (and_iff_left trivial).symm
  | cons step steps ih =>
    obtain ⟨hkeeps, hown⟩ := h.step ic step
    show ((s.step ic step).run ic steps).ClosesOwn ↔ _
    rw [ih hkeeps, hown, Parent.AllApart, and_assoc]

/-- The connections close only what is their own, each file once, exactly in the runs where no
connection of a pty is closed or finalized behind the other one. -/
theorem connections_closeOwn_iff (ic : Riconv σ) (fds : ℕ → Option ParentFile)
    (steps : List ParentStep) :
    ((Parent.start fds).run ic steps).ClosesOwn ↔ (Parent.start fds).AllApart ic steps := by
  rw [(Parent.keeps_start fds).run ic steps]
  exact and_iff_right ⟨fun p hp => absurd hp List.not_mem_nil, List.nodup_nil⟩

/-- A process with a pty: its first connection is closed, the number goes to another file, and
its second connection closes that. -/
theorem pty_closes_other :
    ((Parent.start fun _ => none).run utf8Riconv
      [.exec true [.null, .null, .null] "" ⟨5, some 6, fun i => (i, i)⟩ .created,
        .create ⟨[], false⟩, .create ⟨[], false⟩, .close 0, .openOther 5, .close 1]).closed =
      [(.pty 0, some .other), (.pty 0, some (.pty 0))] ∧
    ¬ ((Parent.start fun _ => none).run utf8Riconv
      [.exec true [.null, .null, .null] "" ⟨5, some 6, fun i => (i, i)⟩ .created,
        .create ⟨[], false⟩, .create ⟨[], false⟩, .close 0, .openOther 5, .close 1]).ClosesOwn := by
  unfold Parent.ClosesOwn
  decide

end Processx
