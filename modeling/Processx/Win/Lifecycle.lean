import Processx.Connection.Utf8
import Processx.Win.Pending

/-!
# The life of a connection

Connection objects come from `processx_c_connection_create()`, and an external pointer with a
finalizer is made for each. Three parties take care of their end: the finalizer, the error path of
`processx__stdio_create()`, and the free list for those with a read that is still going on. Here is
what they do over all objects, and for which runs each object is released once.
-/

namespace Processx.Win.Lifecycle

open SharedQueue

variable {σ : Type} {ic : Riconv σ}

/-- Who frees an object: the error path of `processx__stdio_create()` or the finalizer. -/
inductive Releaser
  | start
  | finalizer
  deriving DecidableEq

/-- A `processx_connection_t` in memory. `freelist` is the flag in its handle, and `listed` if it
has a node in the free list. The last three are a record of what has happened: the finalizer has
not run, who has freed the object, and if it was used after that. -/
structure Object (σ : Type) where
  con : Connection σ
  closeOnDestroy : Bool := true
  freelist : Bool := false
  listed : Bool := false
  registered : Bool := true
  releases : List Releaser := []
  misused : Bool := false

/-- The object is read or written. -/
def Object.use (o : Object σ) : Object σ :=
  { o with misused := o.misused || !o.releases.isEmpty }

/-- The last part of `processx_c_connection_destroy()`. -/
def Object.free (releaser : Releaser) (o : Object σ) : Object σ :=
  { o with
    con := { o.con with iconvCtx := none, hEvent := false }
    releases := o.releases ++ [releaser] }

/-- `processx_c_connection_close()` -/
def cConnectionClose (o : Object σ) : Object σ :=
  { o with con := { o.con with handle := 0, isClosed := true } }

/-- `processx__connection_freelist_add()`, and the message if it throws. -/
def connectionFreelistAdd (memory : Bool) (o : Object σ) : Option String × Object σ :=
  if o.freelist then (none, o)
  else if memory then (none, { o with listed := true, freelist := true })
  else (some "Cannot add to connection freelist, this is a leak", o)

/-- `processx__connection_freelist_remove()`. It frees the node only. -/
def connectionFreelistRemove (o : Object σ) : Object σ := { o with listed := false }

/-- `processx__connection_schedule_destroy()` -/
def connectionScheduleDestroy (memory : Bool) (o : Object σ) : Except String Bool × Object σ :=
  if o.con.readPending then
    match connectionFreelistAdd memory o with
    | (some msg, o) => (.error msg, o)
    | (none, o) => (.ok true, o)
  else (.ok false, o)

/-- `processx_c_connection_destroy()`, and the message if it throws. -/
def cConnectionDestroy (releaser : Releaser) (memory : Bool) (o : Object σ) :
    Option String × Object σ :=
  let o := if o.closeOnDestroy then cConnectionClose o else o
  let o := { o with con := { o.con with isClosed := true } }
  match connectionScheduleDestroy memory o with
  | (.error msg, o) => (some msg, o)
  | (.ok true, o) => (none, o)
  | (.ok false, o) => (none, o.free releaser)

/-- What can be done to an object: it is created, a call is made for it or its operation
completes, `processx__stdio_create()` asks for its handle, it is closed, and it is destroyed by the
error path of `processx__stdio_create()` or by the finalizer. -/
inductive Deed
  | create (opened : Opened) (closeOnDestroy : Bool)
  | act (a : Action)
  | fileno
  | close
  | destroy
  | finalize (memory : Bool)

/-- The completion is made by the operating system, all others by calls of R. -/
def Deed.isCompletion : Deed → Bool
  | .act (.complete _) => true
  | _ => false

/-- A deed for an object that exists. -/
def deed (ic : Riconv σ) (d : Deed) (o : Object σ) : Object σ × List Completion :=
  match d with
  | .create _ _ => (o, [])
  | .act a =>
    ({ (if d.isCompletion then o else o.use) with con := (act ic a o.con).1 }, (act ic a o.con).2)
  | .fileno => (o.use, [])
  | .close => (cConnectionClose o.use, [])
  -- nothing is pending then, so that there is nothing to add to the free list
  | .destroy => ((cConnectionDestroy .start true o.use).2, [])
  | .finalize memory =>
    ((cConnectionDestroy .finalizer memory { o.use with registered := false }).2, [])

/-- A packet is handled. A connection with the flag is removed from the free list. -/
def takePacket (ic : Riconv σ) (h : Handler) (p : Completion) (o : Object σ) : Object σ :=
  let o := { o.use with con := handlePacket ic h p o.con }
  if o.freelist then connectionFreelistRemove o else o

/-- All objects share the completion port. R calls nothing for what it has finalized. -/
def lifecycle (ic : Riconv σ) : Machine (Option (Object σ)) Deed Handler Completion where
  act d
    | none =>
      match d with
      | .create opened closeOnDestroy =>
        (some { con := cConnectionCreate opened, closeOnDestroy := closeOnDestroy }, [])
      | _ => (none, [])
    | some o =>
      if o.registered ∨ d.isCompletion then
        let (o, queued) := deed ic d o
        (some o, queued)
      else (some o, [])
  handle h p o := o.map (takePacket ic h p)

/-- An object with the packets that are queued for it. -/
abbrev Box (σ : Type) := SharedQueue.Box (Option (Object σ)) Completion

/-- All objects and the completion port. -/
abbrev Heap (σ : Type) := System ℕ (Option (Object σ)) Completion

/-- Before anything is created. -/
def Heap.empty : Heap σ := ⟨fun _ => none, []⟩

/-- Something that happens to an object, or to the one of the first packet. -/
abbrev Step := SharedQueue.Event ℕ Deed Handler

/-- An element of the `connections` list: `NULL`, a string, or a connection object. The pointer of
the latter may be `NULL`. -/
inductive Stdio
  | null
  | str (name : String)
  | connection (con : Option ℕ)
  deriving DecidableEq

/-- What a process is started with, which system calls for its streams fail, and the ends of the
pipes that the parent gets. Behind the first three streams R passes connection objects only. -/
structure Streams where
  connections : List Stdio
  encoding : String := ""
  fails : ℕ → Bool := fun _ => false
  memory : Bool := true
  parentHandle : ℕ → { handle : ℕ // handle ≠ 0 } := fun i => ⟨i + 1, Nat.succ_ne_zero i⟩

/-- How `processx__stdio_create()` ends, or a part of it: it goes on, it goes to its error path, or
an R error is thrown. -/
inductive Outcome
  | ok
  | err
  | thrown
  deriving DecidableEq

/-- How far it has come: the number of the next object, `handle->pipes`, and what was done to
connections. -/
structure Progress where
  next : ℕ
  pipes : ℕ → Option ℕ := fun _ => none
  steps : List Step := []

/-- The connection of a pipe. Standard input is not asynchronous. -/
def Streams.parentPipe (s : Streams) (i : ℕ) : Opened where
  handle := (s.parentHandle i).1
  handle_ne := (s.parentHandle i).2
  type := if i = 0 then .pipe else .asyncPipe
  encoding := s.encoding

/-- The loop of `processx__stdio_create()` for one stream. -/
def stdioStream (s : Streams) (i : ℕ) (output : Stdio) (p : Progress) : Outcome × Progress :=
  match output with
  -- ignored output
  | .null => (if s.fails i then .err else .ok, p)
  | .str name =>
    if i = 2 ∧ name = "2>&1" then (.ok, p)
    else if name = "|" then
      -- a pipe that cannot be created throws
      if s.fails i then (.thrown, p)
      else (.ok, { p with
        next := p.next + 1
        pipes := Function.update p.pipes i (some p.next)
        steps := p.steps ++ [.act p.next (.create (s.parentPipe i) true)] })
    -- a file, or the stream of the parent
    else (if s.fails i then .err else .ok, p)
  | .connection none => (.thrown, p)
  | .connection (some con) =>
    (if s.fails i then .err else .ok, { p with steps := p.steps ++ [.act con .fileno] })

/-- The loop of `processx__stdio_create()`. -/
def stdioLoop (s : Streams) : ℕ → List Stdio → Progress → Outcome × Progress
  | _, [], p => (.ok, p)
  | i, output :: connections, p =>
    match stdioStream s i output p with
    | (.ok, p) => stdioLoop s (i + 1) connections p
    | failed => failed

/-- `processx__stdio_create()` -/
def stdioCreate (s : Streams) (next : ℕ) : Outcome × Progress :=
  if s.connections.length > 255 ∨ !s.memory then (.thrown, { next := next })
  else
    match stdioLoop s 0 s.connections { next := next } with
    | (.err, p) =>
      let pipes := (List.range 3).filterMap p.pipes
      (.err, { p with steps := p.steps ++ pipes.map fun con => .act con .destroy })
    | done => done

/-- What can happen: a connection is created, a process is started, a call is made or an operation
completes, a connection is closed or finalized, and a packet is taken. -/
inductive Event
  | create (opened : Opened) (closeOnDestroy : Bool)
  | start (streams : Streams)
  | act (con : ℕ) (a : Action)
  | close (con : ℕ)
  | finalize (con : ℕ) (memory : Bool)
  | take (h : Handler)

/-- What an event does to connections, and the number of the next object. -/
def Event.steps (next : ℕ) : Event → List Step × ℕ
  | .create opened closeOnDestroy => ([.act next (.create opened closeOnDestroy)], next + 1)
  | .start streams => ((stdioCreate streams next).2.steps, (stdioCreate streams next).2.next)
  | .act con a => ([.act con (.act a)], next)
  | .close con => ([.act con .close], next)
  | .finalize con memory => ([.act con (.finalize memory)], next)
  | .take h => ([.take h], next)

/-- What a sequence of events does to connections, step by step. -/
def steps (next : ℕ) : List Event → List Step
  | [] => []
  | e :: events => (e.steps next).1 ++ steps (e.steps next).2 events

/-- The operations of an object that are going on, or over with their packets queued. -/
def Object.flight (o : Object σ) (waiting : List Completion) : List Overlapped :=
  ops ⟨o.con, waiting⟩

/-- An object is freed at most once and not used after that, and while it is freed none of its
operations is going on. Once it is finalized and its operation is over, it is freed. -/
structure Object.Right (o : Object σ) (waiting : List Completion) : Prop where
  once : o.releases.length ≤ 1
  unused : o.misused = false
  idle : o.releases ≠ [] → o.flight waiting = []
  released : o.registered = false → o.flight waiting = [] → o.releases.length = 1

/-- The object of a box, if it was created, is in order. -/
def RightBox (b : Box σ) : Prop := ∀ o ∈ b.state, o.Right b.waiting

/-- The condition on a step. A connection that is used or finalized is none that the error path of
`processx__stdio_create()` has freed. One that is finalized has `read_pending` only if an operation
is going on. Nothing that is over is noticed for a connection that was finalized: no packet is
taken, and no operation ends without one. -/
def Object.Proper (o : Object σ) (waiting : List Completion) :
    SharedQueue.Move Deed Handler → Prop
  | .act (.create _ _) => True
  | .act (.act (.complete _)) =>
    o.con.outstanding ≠ none → o.con.associated = false → o.registered = true
  | .act (.finalize _) => o.registered = true →
    .start ∉ o.releases ∧ (o.con.readPending = true → o.flight waiting ≠ [])
  | .act _ => o.registered = true → .start ∉ o.releases
  | .take _ => waiting ≠ [] → o.registered = true

/-- The condition on a step, for the object of a box. -/
def Proper (b : Box σ) (mv : SharedQueue.Move Deed Handler) : Prop :=
  ∀ o ∈ b.state, o.Proper b.waiting mv

instance (o : Object σ) (waiting : List Completion) :
    ∀ mv : SharedQueue.Move Deed Handler, Decidable (o.Proper waiting mv)
  | .act (.create _ _) => isTrue trivial
  | .act (.act (.complete _)) =>
    inferInstanceAs (Decidable (o.con.outstanding ≠ none → o.con.associated = false →
      o.registered = true))
  | .act (.finalize _) =>
    inferInstanceAs (Decidable (o.registered = true →
      .start ∉ o.releases ∧ (o.con.readPending = true → o.flight waiting ≠ [])))
  | .act (.act (.prePoll _)) | .act (.act (.readStart _)) | .act (.act (.takeUtf8 _))
  | .act (.act .growUtf8) | .act (.act .setRaw) | .act (.act (.takeRaw _)) | .act (.act .accept)
  | .act .fileno | .act .close | .act .destroy =>
    inferInstanceAs (Decidable (o.registered = true → .start ∉ o.releases))
  | .take _ => inferInstanceAs (Decidable (waiting ≠ [] → o.registered = true))

instance (b : Box σ) (mv : SharedQueue.Move Deed Handler) : Decidable (Proper b mv) :=
  inferInstanceAs (Decidable (∀ o ∈ b.state, o.Proper b.waiting mv))

/-- What holds of an object in every state of a proper run. -/
structure Object.Kept (o : Object σ) (waiting : List Completion) : Prop extends
    o.Right waiting where
  matched : Matched ⟨o.con, waiting⟩
  byStart : o.registered = true → o.releases = [] ∨ o.releases = [.start]

/-- Nothing is queued before an object is created. -/
def KeptBox (b : Box σ) : Prop :=
  match b.state with
  | none => b.waiting = []
  | some o => o.Kept b.waiting

/-- A box that keeps the invariant is in order. -/
theorem KeptBox.right {b : Box σ} (h : KeptBox b) : RightBox b := by
  intro o ho
  unfold KeptBox at h
  rw [Option.mem_def.mp ho] at h
  exact h.toRight

section Kept

variable {o : Object σ} {waiting : List Completion}

/-- An object that is not freed is in order while R has it or its operation is going on. -/
theorem Object.Kept.of_unreleased (hlive : o.releases = []) (hunused : o.misused = false)
    (hmatched : Matched ⟨o.con, waiting⟩)
    (hflight : o.registered = false → o.flight waiting ≠ []) : o.Kept waiting where
  once := by simp [hlive]
  unused := hunused
  idle := fun hreleased => absurd hlive hreleased
  released := fun hfinalized hidle => absurd hidle (hflight hfinalized)
  matched := hmatched
  byStart := fun _ => Or.inl hlive

/-- An object is freed. -/
theorem Object.Kept.of_released {releaser : Releaser} (hreleased : o.releases = [releaser])
    (hunused : o.misused = false) (hmatched : Matched ⟨o.con, waiting⟩)
    (hpending : o.con.readPending = false)
    (hreleaser : o.registered = true → releaser = .start) : o.Kept waiting where
  once := by simp [hreleased]
  unused := hunused
  idle := fun _ => hmatched.idle hpending
  released := fun _ _ => by simp [hreleased]
  matched := hmatched
  byStart := fun hregistered => Or.inr (by rw [hreleased, hreleaser hregistered])

/-- What R still has is not freed, unless by a failed start. -/
theorem Object.Kept.live (h : o.Kept waiting) (hregistered : o.registered = true)
    (hstart : .start ∉ o.releases) : o.releases = [] := by
  refine (h.byStart hregistered).resolve_right fun hreleases => hstart ?_
  rw [hreleases]
  exact List.mem_singleton_self _

/-- While an operation is going on, the object is not freed. -/
theorem Object.Kept.unreleased (h : o.Kept waiting) (hflight : o.flight waiting ≠ []) :
    o.releases = [] := by
  by_contra hreleased
  exact hflight (h.idle hreleased)

/-- An object that is lost is not in order: it was finalized, nothing is going on, and it is not
freed. -/
theorem Object.Right.not_lost (h : o.Right waiting) (hlive : o.releases = [])
    (hidle : o.flight waiting = []) : o.registered = true := by
  by_contra hfinalized
  have hone := h.released (Bool.not_eq_true _ ▸ hfinalized) hidle
  rw [hlive] at hone
  cases hone

/-- Using an object that was not released changes nothing. -/
theorem Object.use_of_live (hlive : o.releases = []) : o.use = o := by
  have hsame : (o.misused || !o.releases.isEmpty) = o.misused := by simp [hlive]
  unfold Object.use
  rw [hsame]

/-- Using one that was released is a misuse. -/
theorem Object.use_misused (hreleased : o.releases ≠ []) : o.use.misused = true := by
  simp [Object.use, hreleased]

end Kept

/-- What `processx_c_connection_destroy()` does: it does not free an object with a pending read. -/
structure Destroyed (releaser : Releaser) (o o' : Object σ) : Prop where
  misused : o'.misused = o.misused
  registered : o'.registered = o.registered
  readPending : o'.con.readPending = o.con.readPending
  outstanding : o'.con.outstanding = o.con.outstanding
  releases : o'.releases = if o.con.readPending then o.releases else o.releases ++ [releaser]

/-- An object with a pending read is only flagged. -/
theorem connectionScheduleDestroy_of_pending (memory : Bool) {o : Object σ}
    (hpending : o.con.readPending = true) :
    ∃ result freelist listed, connectionScheduleDestroy memory o =
      (result, { o with freelist := freelist, listed := listed }) ∧ result ≠ .ok false := by
  unfold connectionScheduleDestroy connectionFreelistAdd
  rw [if_pos hpending]
  split_ifs with hflag hmemory
  · exact ⟨.ok true, o.freelist, o.listed, rfl, by simp⟩
  · exact ⟨.ok true, true, true, rfl, by simp⟩
  · exact ⟨.error _, o.freelist, o.listed, rfl, by simp⟩

/-- What `processx_c_connection_destroy()` does, for either owner of the memory. -/
theorem cConnectionDestroy_destroyed (releaser : Releaser) (memory : Bool) (o : Object σ) :
    Destroyed releaser o (cConnectionDestroy releaser memory o).2 := by
  unfold cConnectionDestroy
  obtain ⟨c, hc, hpending, hout⟩ : ∃ c, { (if o.closeOnDestroy then cConnectionClose o else o) with
      con := { (if o.closeOnDestroy then cConnectionClose o else o).con with isClosed := true } } =
        { o with con := c } ∧
      c.readPending = o.con.readPending ∧ c.outstanding = o.con.outstanding := by
    split_ifs
    · exact ⟨_, rfl, rfl, rfl⟩
    · exact ⟨_, rfl, rfl, rfl⟩
  dsimp only at hc ⊢
  rw [hc]
  cases hread : o.con.readPending with
  | false =>
    have hfree : connectionScheduleDestroy memory { o with con := c } =
        (.ok false, { o with con := c }) := if_neg (by simp [hpending, hread])
    rw [hfree]
    exact ⟨rfl, rfl, hpending, hout, by rw [hread]; rfl⟩
  | true =>
    obtain ⟨result, freelist, listed, hschedule, hresult⟩ :=
      connectionScheduleDestroy_of_pending memory (o := { o with con := c })
        (hpending.trans hread)
    rw [hschedule]
    have hkept : Destroyed releaser o { o with con := c, freelist := freelist, listed := listed } :=
      ⟨rfl, rfl, hpending, hout, by rw [hread]; rfl⟩
    cases result with
    | error msg => exact hkept
    | ok deferred =>
      cases deferred with
      | true => exact hkept
      | false => exact absurd rfl hresult

/-- Destroying an object does not touch what is in flight. -/
theorem Destroyed.flight {releaser : Releaser} {o o' : Object σ} (h : Destroyed releaser o o')
    (waiting : List Completion) : o'.flight waiting = o.flight waiting := by
  simp only [Object.flight, ops, h.outstanding]

section Step

variable {o : Object σ} {waiting : List Completion}

/-- If the object is in order after it was used, it was not freed by a failed start. -/
theorem Object.Right.not_start {o' : Object σ} {waiting' : List Completion}
    (h : o'.Right waiting') (hmisused : o'.misused = o.use.misused) : .start ∉ o.releases := by
  intro hstart
  have hset := o.use_misused (List.ne_nil_of_mem hstart)
  rw [← hmisused, h.unused] at hset
  cases hset

/-- What a step should be for an object: it leads to one in order exactly if it is proper, and what
holds in proper runs is kept then. -/
def StepRight (ic : Riconv σ) (o : Object σ) (waiting : List Completion)
    (mv : SharedQueue.Move Deed Handler) : Prop :=
  ∃ o' waiting', SharedQueue.Box.step (lifecycle ic) ⟨some o, waiting⟩ mv = ⟨some o', waiting'⟩ ∧
    (o'.Right waiting' → o.Proper waiting mv) ∧ (o.Proper waiting mv → o'.Kept waiting')

/-- A deed that is done. -/
theorem step_deed (ic : Riconv σ) {d : Deed} (h : o.registered = true ∨ d.isCompletion = true) :
    SharedQueue.Box.step (lifecycle ic) ⟨some o, waiting⟩ (.act d) =
      ⟨some (deed ic d o).1, waiting ++ (deed ic d o).2⟩ := by
  simp [SharedQueue.Box.step, lifecycle, h]

/-- A deed that starts nothing. -/
theorem step_silent (ic : Riconv σ) {d : Deed} (h : o.registered = true ∨ d.isCompletion = true)
    (hnone : (deed ic d o).2 = []) :
    SharedQueue.Box.step (lifecycle ic) ⟨some o, waiting⟩ (.act d) =
      ⟨some (deed ic d o).1, waiting⟩ := by
  rw [step_deed ic h, hnone, List.append_nil]

/-- A call for an object that R has. -/
theorem Object.Kept.call (ic : Riconv σ) (h : o.Kept waiting) (hregistered : o.registered = true)
    {d : Deed} {c' : Connection σ} {queued : List Completion}
    (hproper : o.Proper waiting (.act d) ↔ .start ∉ o.releases)
    (hdeed : deed ic d o = ({ o.use with con := c' }, queued))
    (hmatched : Matched ⟨c', waiting ++ queued⟩) : StepRight ic o waiting (.act d) := by
  refine ⟨_, _, step_deed ic (Or.inl hregistered), fun hright => ?_, fun hstart => ?_⟩
  · rw [hdeed] at hright
    exact hproper.mpr (hright.not_start rfl)
  · have hlive := h.live hregistered (hproper.mp hstart)
    rw [hdeed, Object.use_of_live hlive]
    refine .of_unreleased hlive h.unused hmatched fun hfinalized => ?_
    cases hregistered.symm.trans hfinalized

/-- What is left of an operation that is over. -/
theorem complete_ops {c : Connection σ} (h : Matched ⟨c, waiting⟩) (hout : c.outstanding ≠ none)
    (bytes : Bytes) :
    ops ⟨(complete bytes c).1, waiting ++ (complete bytes c).2⟩ = [] ↔ c.associated = false := by
  obtain ⟨op, hop⟩ := Option.ne_none_iff_exists'.mp hout
  have hnil := h.unqueued hop
  subst hnil
  unfold complete
  rw [hop]
  cases op <;> cases c.associated <;> simp [ops]

/-- The operating system completes an operation. -/
theorem Object.Kept.complete (ic : Riconv σ) (h : o.Kept waiting) (bytes : Bytes) :
    StepRight ic o waiting (.act (.act (.complete bytes))) := by
  refine ⟨_, _, step_deed ic (Or.inr rfl), ?_⟩
  show (Object.Right { o with con := (Win.complete bytes o.con).1 }
      (waiting ++ (Win.complete bytes o.con).2) → _) ∧
    (_ → Object.Kept { o with con := (Win.complete bytes o.con).1 }
      (waiting ++ (Win.complete bytes o.con).2))
  by_cases hout : o.con.outstanding = none
  · have hnothing : Win.complete bytes o.con = (o.con, []) := by
      unfold Win.complete
      rw [hout]
    rw [hnothing, List.append_nil]
    exact ⟨fun _ hsome => absurd hout hsome, fun _ => h⟩
  · have hlive := h.unreleased fun hidle =>
      hout (Option.toList_eq_nil_iff.mp (List.append_eq_nil_iff.mp hidle).1)
    have hops := complete_ops h.matched hout bytes
    constructor
    · exact fun hright _ hassociated => hright.not_lost hlive (hops.mpr hassociated)
    · intro hproper
      refine .of_unreleased hlive h.unused (h.matched.act ic (.complete bytes)) ?_
      intro hfinalized hidle
      have hregistered := hproper hout (hops.mp hidle)
      cases hregistered.symm.trans hfinalized

/-- The first packet is handled. It is the end of the last operation, and nothing frees the object
after it. -/
theorem Object.Kept.take (ic : Riconv σ) (h : o.Kept waiting) (handler : Handler) :
    StepRight ic o waiting (.take handler) := by
  cases waiting with
  | nil => exact ⟨o, [], rfl, fun _ hsome => absurd rfl hsome, fun _ => h⟩
  | cons p rest =>
    obtain ⟨hout, hrest⟩ := h.matched.last
    subst hrest
    have hlive := h.unreleased (by simp [Object.flight, ops])
    obtain ⟨_, hhandled⟩ := handlePacket_handled ic handler p o.con
    obtain ⟨listed, htaken⟩ : ∃ listed, takePacket ic handler p o =
        { o with con := handlePacket ic handler p o.con, listed := listed } := by
      unfold takePacket
      rw [Object.use_of_live hlive]
      dsimp only
      split_ifs
      · exact ⟨false, rfl⟩
      · exact ⟨o.listed, rfl⟩
    have hmatched : Matched ⟨handlePacket ic handler p o.con, []⟩ :=
      .of_idle (hhandled.outstanding.trans hout)
    have hidle := hmatched.idle hhandled.readPending
    refine ⟨_, [], rfl, ?_, ?_⟩
    · rw [htaken]
      exact fun hright _ => hright.not_lost hlive hidle
    · rw [htaken]
      intro hproper
      refine .of_unreleased hlive h.unused hmatched fun hfinalized => ?_
      have hregistered : o.registered = true := hproper (by simp)
      cases hregistered.symm.trans hfinalized

/-- An object that was not freed is destroyed. -/
theorem Destroyed.kept {releaser : Releaser} {o' : Object σ} (h : Destroyed releaser o o')
    (hmatched : Matched ⟨o.con, waiting⟩) (hlive : o.releases = []) (hunused : o.misused = false)
    (hreleaser : o.registered = true → releaser = .start)
    (hflight : o.registered = false → o.con.readPending = true → o.flight waiting ≠ []) :
    o'.Kept waiting := by
  have hmatched' : Matched ⟨o'.con, waiting⟩ := hmatched.same h.readPending h.outstanding
  have hunused' := h.misused.trans hunused
  have hreleases := h.releases
  rw [hlive] at hreleases
  cases hpending : o.con.readPending with
  | true =>
    rw [hpending, if_pos rfl] at hreleases
    refine .of_unreleased hreleases hunused' hmatched' fun hfinalized => ?_
    rw [h.flight waiting]
    exact hflight (h.registered.symm.trans hfinalized) hpending
  | false =>
    rw [hpending] at hreleases
    refine .of_released hreleases hunused' hmatched' (h.readPending.trans hpending) ?_
    exact fun hregistered => hreleaser (h.registered.symm.trans hregistered)

/-- The error path of a start destroys an object that R still has. -/
theorem Object.Kept.fail (ic : Riconv σ) (h : o.Kept waiting) (hregistered : o.registered = true) :
    StepRight ic o waiting (.act .destroy) := by
  have hdestroyed := cConnectionDestroy_destroyed .start true o.use
  refine ⟨_, _, step_silent ic (Or.inl hregistered) rfl, ?_, fun hproper => ?_⟩
  · exact fun hright _ => hright.not_start hdestroyed.misused
  · have hlive := h.live hregistered (hproper hregistered)
    rw [Object.use_of_live hlive] at hdestroyed
    have hdeed : (deed ic .destroy o).1 = (cConnectionDestroy .start true o).2 := by
      simp only [deed, Object.use_of_live hlive]
    rw [hdeed]
    refine hdestroyed.kept h.matched hlive h.unused (fun _ => rfl) fun hfinalized => ?_
    cases hregistered.symm.trans hfinalized

/-- The finalizer runs. -/
theorem Object.Kept.finalize (ic : Riconv σ) (h : o.Kept waiting)
    (hregistered : o.registered = true) (memory : Bool) :
    StepRight ic o waiting (.act (.finalize memory)) := by
  have hdestroyed :=
    cConnectionDestroy_destroyed .finalizer memory { o.use with registered := false }
  refine ⟨_, _, step_silent ic (Or.inl hregistered) rfl, fun hright _ => ?_, fun hproper => ?_⟩
  · have hstart := hright.not_start hdestroyed.misused
    refine ⟨hstart, fun hpending hidle => ?_⟩
    -- the object would be lost
    have hreleases := hdestroyed.releases.trans (if_pos hpending)
    have hlost := hright.not_lost (hreleases.trans (h.live hregistered hstart))
      ((hdestroyed.flight waiting).trans hidle)
    cases hlost.symm.trans hdestroyed.registered
  · obtain ⟨hstart, hflight⟩ := hproper hregistered
    have hlive := h.live hregistered hstart
    rw [Object.use_of_live hlive] at hdestroyed
    have hdeed : (deed ic (.finalize memory) o).1 =
        (cConnectionDestroy .finalizer memory { o with registered := false }).2 := by
      simp only [deed, Object.use_of_live hlive]
    rw [hdeed]
    exact hdestroyed.kept h.matched hlive h.unused nofun fun _ => hflight

/-- Every step leads to an object in order exactly if it is proper. -/
theorem Object.Kept.step (ic : Riconv σ) (h : o.Kept waiting)
    (mv : SharedQueue.Move Deed Handler) : StepRight ic o waiting mv := by
  cases mv with
  | take handler => exact h.take ic handler
  | act d =>
    cases hcompletion : d.isCompletion with
    | true =>
      cases d with
      | act a =>
        cases a with
        | complete bytes => exact h.complete ic bytes
        | _ => cases hcompletion
      | _ => cases hcompletion
    | false =>
      cases hregistered : o.registered with
      | false =>
        -- R has no way to do this any more
        refine ⟨o, waiting, ?_, fun _ => ?_, fun _ => h⟩
        · simp [SharedQueue.Box.step, lifecycle, hregistered, hcompletion]
        · have hnever : ∀ {P : Prop}, o.registered = true → P := fun hset => by
            cases hregistered.symm.trans hset
          cases d with
          | create opened closeOnDestroy => trivial
          | act a =>
            cases a with
            | complete bytes => cases hcompletion
            | _ => exact hnever
          | _ => exact hnever
      | true =>
        cases d with
        | create opened closeOnDestroy =>
          exact ⟨o, waiting, step_silent ic (Or.inl hregistered) rfl, fun _ => trivial, fun _ => h⟩
        | act a =>
          refine h.call ic hregistered ?_ (by simp only [deed, hcompletion]; rfl)
            (h.matched.act ic a)
          cases a with
          | complete bytes => cases hcompletion
          | _ => simp [Object.Proper, hregistered]
        | fileno =>
          have hdeed : deed ic .fileno o = ({ o.use with con := o.con }, []) := rfl
          refine h.call ic hregistered (by simp [Object.Proper, hregistered]) hdeed ?_
          rw [List.append_nil]
          exact h.matched
        | close =>
          refine h.call ic hregistered (by simp [Object.Proper, hregistered]) rfl ?_
          rw [List.append_nil]
          exact h.matched.same rfl rfl
        | destroy => exact h.fail ic hregistered
        | finalize memory => exact h.finalize ic hregistered memory

end Step

/-- A box without an object gets a fresh one, or stays as it is. -/
theorem KeptBox.step_none (ic : Riconv σ) {waiting : List Completion} (hwaiting : waiting = [])
    (mv : SharedQueue.Move Deed Handler) :
    KeptBox (SharedQueue.Box.step (lifecycle ic) ⟨none, waiting⟩ mv) := by
  subst hwaiting
  cases mv with
  | take handler => exact (rfl : ([] : List Completion) = [])
  | act d =>
    cases d with
    | create opened closeOnDestroy =>
      exact Object.Kept.of_unreleased rfl rfl (.of_idle rfl) nofun
    | _ => exact (rfl : ([] : List Completion) = [])

/-- A step leads to a box in order exactly if it is proper, and then the invariant is kept. -/
theorem KeptBox.step (ic : Riconv σ) {b : Box σ} (h : KeptBox b)
    (mv : SharedQueue.Move Deed Handler) :
    (RightBox (b.step (lifecycle ic) mv) ↔ Proper b mv) ∧
      (Proper b mv → KeptBox (b.step (lifecycle ic) mv)) := by
  obtain ⟨state, waiting⟩ := b
  cases state with
  | none =>
    have hkept := KeptBox.step_none ic h mv
    exact ⟨iff_of_true hkept.right (by simp [Proper]), fun _ => hkept⟩
  | some o =>
    obtain ⟨o', waiting', hstep, hright, hkept⟩ := Object.Kept.step ic h mv
    have hproper : Proper ⟨some o, waiting⟩ mv ↔ o.Proper waiting mv := by simp [Proper]
    have hkept' : o.Proper waiting mv → KeptBox ⟨some o', waiting'⟩ := hkept
    rw [hstep, hproper]
    exact ⟨⟨fun hbox => hright (hbox o' rfl), fun hstep => (hkept' hstep).right⟩, hkept'⟩

/-- In every state of a run, within its events, too, all objects are in order. -/
def ReleasedOnce (ic : Riconv σ) (events : List Event) : Prop :=
  ∀ earlier, earlier <+: steps 0 events →
    ∀ con, RightBox (((Heap.empty : Heap σ).run (lifecycle ic) earlier).box con)

/-- **Every connection object is freed once**, not while a read is pending, and not used after that,
in exactly the runs with proper steps only: no pipe of a failed start is used or finalized, a
connection is finalized with `read_pending` only while a read is going on, and the end of that read
is never noticed. -/
theorem released_once_iff (ic : Riconv σ) (events : List Event) :
    ReleasedOnce ic events ↔
      System.Along (lifecycle ic) (System.Each Proper) (Heap.empty : Heap σ) (steps 0 events) := by
  have hempty : ∀ con, KeptBox ((Heap.empty : Heap σ).box con) := fun _ => rfl
  rw [← System.along_iff_of_each (fun _ mv hb => hb.step ic mv) (steps 0 events) hempty]
  exact (System.along_iff_reached fun con => (hempty con).right).symm

/-- The pipe of a process brings a byte and is finalized behind it. -/
example : System.Along (lifecycle utf8Riconv) (System.Each Proper) Heap.empty (steps 0
    [.start { connections := [.null, .str "|", .null] }, .act 0 (.prePoll {}),
      .act 0 (.complete [0x61]), .take (.poll true), .finalize 0 true]) := by
  decide

/-- Standard output is a pipe, and the file for the standard error cannot be opened: the pipe is
freed by the start and by its finalizer. The other connection is finalized while a read is pending,
and nothing frees it when the read is over. -/
theorem released_twice_and_never :
    let failed : List Event :=
      [.start { connections := [.null, .str "|", .str "/"], fails := fun i => i == 2 },
        .finalize 0 true]
    let deferred : List Event :=
      [.create { handle := 1, handle_ne := by decide } true, .act 0 (.prePoll {}),
        .finalize 0 true, .act 0 (.complete []), .take (.poll false)]
    let twice := (Heap.empty.run (lifecycle utf8Riconv) (steps 0 failed)).box 0
    let never := (Heap.empty.run (lifecycle utf8Riconv) (steps 0 deferred)).box 0
    (twice.state.map fun o => (o.releases, o.misused)) = some ([.start, .finalizer], true) ∧
      ¬ ReleasedOnce utf8Riconv failed ∧
      (never.state.map fun o => (o.releases, o.registered, o.flight never.waiting)) =
        some ([], false, []) ∧
      ¬ ReleasedOnce utf8Riconv deferred := by
  intro failed deferred twice never
  have htwice : (twice.state.map fun o => (o.releases, o.misused)) =
      some ([.start, .finalizer], true) := by decide
  have hnever : (never.state.map fun o => (o.releases, o.registered, o.flight never.waiting)) =
      some ([], false, []) := by decide
  refine ⟨htwice, fun honce => ?_, hnever, fun honce => ?_⟩
  · obtain ⟨o, ho, hsame⟩ := Option.map_eq_some_iff.mp htwice
    have hmisused : o.misused = true := congrArg Prod.snd hsame
    cases hmisused.symm.trans (honce _ List.prefix_rfl 0 o ho).unused
  · obtain ⟨o, ho, hsame⟩ := Option.map_eq_some_iff.mp hnever
    obtain ⟨hlive, hfinalized, hidle⟩ := by simpa only [Prod.mk.injEq] using hsame
    have hregistered := (honce _ List.prefix_rfl 0 o ho).not_lost hlive hidle
    cases hregistered.symm.trans hfinalized

end Processx.Win.Lifecycle
