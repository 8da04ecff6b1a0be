import Processx.Connection.Raw
import Processx.Connection.Poll
import Processx.Unix.FailedStart

/-!
# Constructors that throw

The functions that create a FIFO or a Unix domain socket, or connect to one. Each opens one
descriptor, and a connection object owns it at the end. There is no common way out: what fails in
between throws, and leaves the descriptor open.
-/

namespace Processx.Constructors

open Interruptible Posix FailedStart

variable {σ : Type}

/-- How a call comes out: with an error number if it fails. -/
inductive Answer
  | ok
  | fail (errno : ℤ)
  | flags (nonblock : Bool)

/-- What a constructor throws for. -/
inductive Failure
  | path
  | socket
  | bind
  | listen
  | connect
  | mkfifo
  | openFifo
  | malloc
  | encoding
  | filename
  | externalPtr
  | classAttribute
  deriving DecidableEq

/-- The text of the error. Those of R itself have none here. -/
def Failure.message (filename : String) : Failure → Option String
  | .path => some s!"Server socket path too long: {filename}"
  | .socket => some "Cannot create socket"
  | .bind => some "Cannot bind to socket"
  | .listen => some "Cannot listen on socket"
  | .connect => some "Cannot connect to socket"
  | .mkfifo => some s!"Cannot create fifo at {filename}"
  | .openFifo => some s!"Cannot open fifo `{filename}`"
  | .malloc | .encoding | .filename => some "cannot create connection, out of memory"
  | .externalPtr | .classAttribute => none

/-- Programs that throw what has failed. -/
abbrev Call (α : Type) := Prog World Answer Failure α

/-- Actions on the world. -/
abbrev Act (ρ : Type) := Action World Answer ρ

/-- A call that opens and closes nothing, and succeeds or does not. -/
def sysCall : Act Bool := fun w answer =>
  match answer with
  | .ok => some (true, w)
  | .fail _ => some (false, w)
  | .flags _ => none

/-- `socket()` -/
def newSocket : Act (Option ℕ) := fun w answer =>
  match answer with
  | .ok => some (some w.newFd, w.opened)
  | .fail _ => some (none, w)
  | .flags _ => none

/-- The access mode of an open file. -/
inductive Access
  | rdonly
  | wronly
  | rdwr
  deriving DecidableEq

/-- The flags of `open()`: the access mode, and `O_NONBLOCK`. -/
structure OpenFlags where
  access : Access
  nonblock : Bool
  deriving DecidableEq

/-- The flags with which a FIFO is opened. `O_RDONLY` is zero. -/
def fifoFlags (read write nonblocking : Bool) : OpenFlags where
  access := if !read && write then (if nonblocking then .rdwr else .wronly) else .rdonly
  nonblock := nonblocking

/-- `ENXIO`, for a FIFO that nobody reads. -/
def enxio : ℤ := 6

/-- `open()` of a FIFO. It fails for want of a reader only if it is to be opened for writing alone, and
without waiting. -/
def openFifo (flags : OpenFlags) : Act (Option ℕ) := fun w answer =>
  match answer with
  | .ok => some (some w.newFd, w.opened)
  | .fail errno =>
    if errno = enxio ∧ flags ≠ ⟨.wronly, true⟩ then none else some (none, w)
  | .flags _ => none

/-- `fcntl(fd, F_GETFL)`: is `O_NONBLOCK` set? -/
def getfl : Act (Except ℤ Bool) := fun w answer =>
  match answer with
  | .flags nonblock => some (.ok nonblock, w)
  | .fail errno => some (.error errno, w)
  | .ok => none

/-- `fcntl(fd, F_SETFL, flags)`. -/
def setfl : Act (Except ℤ Unit) := fun w answer =>
  match answer with
  | .ok => some (.ok (), w)
  | .fail errno => some (.error errno, w)
  | .flags _ => none

/-- `R_RegisterCFinalizerEx()`: from now on an object owns the descriptor. -/
def registerFinalizer (osHandle : ℕ) : Act Unit := fun w _ =>
  some ((), { w with connections := osHandle :: w.connections })

/-- Throw if the call does not succeed. -/
def check (call : Act Bool) (failure : Failure) : Call Unit := do
  let ok ← Prog.lift call
  if ok then .ret () else .throw failure

/-- A new descriptor, or throw. -/
def checkFd (call : Act (Option ℕ)) (failure : Failure) : Call ℕ := do
  let fd ← Prog.lift call
  match fd with
  | some fd => .ret fd
  | none => .throw failure

/-- `processx__nonblock_fcntl()` -/
def nonblockFcntl (set : Bool) : Call ℤ := do
  let r ← Prog.lift getfl
  match r with
  | .error errno => .ret (-errno)
  | .ok nonblock =>
    if nonblock = set then .ret 0
    else do
      let r ← Prog.lift setfl
      match r with
      | .error errno => .ret (-errno)
      | .ok () => .ret 0

/-- A connection with the name of its file. -/
structure NamedConnection (σ : Type) extends PollConnection σ where
  filename : String
  deriving DecidableEq

/-- `strdup()` of the encoding, unless there is none or it is binary. -/
def copyEncoding (encoding : String) : Call Unit :=
  if encoding ≠ "" ∧ encoding ≠ "binary" then check sysCall .encoding else .ret ()

/-- `processx_c_connection_create()` -/
def cConnectionCreate (osHandle : ℕ) (type : FileType) (encoding filename : String) :
    Call (NamedConnection σ) := do
  check sysCall .malloc
  copyEncoding encoding
  check sysCall .filename
  check sysCall .externalPtr
  Prog.lift (registerFinalizer osHandle)
  check sysCall .classAttribute
  .ret { cConnectionCreateEncoding osHandle encoding with type := type, filename := filename }

/-- `processx_connection_create_fifo()` -/
def connectionCreateFifo (read write : Bool) (filename encoding : String) (nonblocking : Bool) :
    Call (NamedConnection σ) := do
  check sysCall .mkfifo
  let osHandle ← checkFd (openFifo (fifoFlags read write nonblocking)) .openFifo
  let _ ← nonblockFcntl nonblocking
  cConnectionCreate osHandle (if nonblocking then .asyncPipe else .pipe) encoding filename

/-- `processx_connection_connect_fifo()` -/
def connectionConnectFifo (filename : String) (read write : Bool) (encoding : String)
    (nonblocking : Bool) : Call (NamedConnection σ) := do
  let osHandle ← checkFd (openFifo (fifoFlags read write nonblocking)) .openFifo
  let _ ← nonblockFcntl nonblocking
  cConnectionCreate osHandle (if nonblocking then .asyncPipe else .pipe) encoding filename

/-- `processx_connection_create_socket()`. The room in `sun_path` depends on the system. -/
def connectionCreateSocket (sunPath : ℕ) (filename encoding : String) :
    Call (NamedConnection σ) := do
  if filename.utf8ByteSize > sunPath - 1 then .throw .path
  else do
    let osHandle ← checkFd newSocket .socket
    check sysCall .bind
    check sysCall .listen
    let _ ← nonblockFcntl true
    let ccon ← cConnectionCreate osHandle .socket encoding filename
    .ret { ccon with state := .listen }

/-- `processx_connection_connect_socket()` -/
def connectionConnectSocket (filename encoding : String) : Call (NamedConnection σ) := do
  let osHandle ← checkFd newSocket .socket
  let _ ← nonblockFcntl true
  check sysCall .connect
  let ccon ← cConnectionCreate osHandle .socket encoding filename
  .ret { ccon with state := .connectedClient }

/-- A call of one of them. -/
inductive Constructor
  | createFifo (read write : Bool) (filename encoding : String) (nonblocking : Bool)
  | connectFifo (filename : String) (read write : Bool) (encoding : String) (nonblocking : Bool)
  | createSocket (sunPath : ℕ) (filename encoding : String)
  | connectSocket (filename encoding : String)

/-- What it does. -/
def Constructor.run : Constructor → Call (NamedConnection σ)
  | .createFifo read write filename encoding nonblocking =>
    connectionCreateFifo read write filename encoding nonblocking
  | .connectFifo filename read write encoding nonblocking =>
    connectionConnectFifo filename read write encoding nonblocking
  | .createSocket sunPath filename encoding => connectionCreateSocket sunPath filename encoding
  | .connectSocket filename encoding => connectionConnectSocket filename encoding

/-- Nothing is open that the call has opened. -/
def Closed (w : World) : Prop := ∀ fd e, w.table.entry fd = some e → e.file = .other

/-- The failures that come before there is a descriptor. -/
def Failure.IsEarly (failure : Failure) : Prop :=
  failure = .path ∨ failure = .socket ∨ failure = .mkfifo ∨ failure = .openFifo

instance (failure : Failure) : Decidable failure.IsEarly := inferInstanceAs (Decidable (_ ∨ _))

/-- A triple for all runs of a program, also if others open and close descriptors meanwhile. -/
abbrev Spec {α : Type} (P : World → Prop) (p : Call α) (Q : Except Failure α → World → Prop) :
    Prop :=
  Ensures World.move (fun _ => True) P p Q

/-- What holds where a program throws: the descriptors of the call are closed exactly if there was
none yet. -/
def ThrowsClean {α : Type} : Except Failure α → World → Prop
  | .ok _, _ => True
  | .error failure, w => Closed w ↔ failure.IsEarly

variable {numbers connections : List ℕ} {α β : Type} {Q : Except Failure α → World → Prop}

/-- Nothing of the call is open if and only if it has no numbers. -/
theorem closed_iff {w : World} (h : At none numbers connections w) :
    Closed w ↔ numbers = [] := by
  constructor
  · intro hclosed
    apply List.eq_nil_iff_forall_not_mem.mpr
    intro fd hfd
    obtain ⟨e, hentry, hcall⟩ := (h.holds.mem_iff fd).mp hfd
    have hother := hclosed fd e hentry
    rw [hcall] at hother
    cases hother
  · rintro rfl fd e hentry
    cases horigin : e.file with
    | other => rfl
    | call => exact absurd ((h.holds.mem_iff fd).mpr ⟨e, hentry, horigin⟩) List.not_mem_nil

/-- An action that leaves the world alone. -/
def Harmless {ρ : Type} (a : Act ρ) : Prop := ∀ w answer r w', a w answer = some (r, w') → w' = w

/-- A call that succeeds or fails leaves the descriptors alone. -/
theorem harmless_sysCall : Harmless sysCall := by
  intro w answer r w' h
  cases answer <;> cases h <;> rfl

/-- So does `F_GETFL`. -/
theorem harmless_getfl : Harmless getfl := by
  intro w answer r w' h
  cases answer <;> cases h <;> rfl

/-- So does `F_SETFL`. -/
theorem harmless_setfl : Harmless setfl := by
  intro w answer r w' h
  cases answer <;> cases h <;> rfl

/-- The rule for a call that is checked. -/
theorem check_spec {failure : Failure} {f : Unit → Call α}
    (hthrow : ∀ w, At none numbers connections w → Q (.error failure) w)
    (hnext : Spec (At none numbers connections) (f ()) Q) :
    Spec (At none numbers connections) (check sysCall failure >>= f) Q := by
  apply Ensures.act (kept_at ..) (fun _ => At none numbers connections)
  · intro w answer r w' hw h
    exact harmless_sysCall w answer r w' h ▸ hw
  · intro ok
    cases ok with
    | true => exact hnext
    | false => exact .throw (kept_at ..) hthrow

/-- The call opens one descriptor, or changes nothing. -/
def Opening (a : Act (Option ℕ)) : Prop := ∀ w answer fd w', a w answer = some (fd, w') →
  fd = some w.newFd ∧ w' = w.opened ∨ fd = none ∧ w' = w

/-- A socket is one descriptor. -/
theorem opening_newSocket : Opening newSocket := by
  intro w answer fd w' h
  cases answer <;> cases h
  · exact Or.inl ⟨rfl, rfl⟩
  · exact Or.inr ⟨rfl, rfl⟩

/-- So is a FIFO, with any flags. -/
theorem opening_openFifo (flags : OpenFlags) : Opening (openFifo flags) := by
  intro w answer fd w' h
  cases answer with
  | ok =>
    cases h
    exact Or.inl ⟨rfl, rfl⟩
  | fail errno =>
    unfold openFifo at h
    dsimp only at h
    split_ifs at h
    cases h
    exact Or.inr ⟨rfl, rfl⟩
  | flags nonblock => cases h

/-- A FIFO that is opened with the flags of the package never fails for want of a reader. -/
theorem openFifo_needs_no_reader (read write nonblocking : Bool) (w : World) :
    openFifo (fifoFlags read write nonblocking) w (.fail enxio) = none := by
  cases read <;> cases write <;> cases nonblocking <;> rfl

/-- The rule for a new descriptor. -/
theorem checkFd_spec {call : Act (Option ℕ)} (hcall : Opening call) {failure : Failure}
    {f : ℕ → Call α} (hthrow : ∀ w, At none numbers connections w → Q (.error failure) w)
    (hnext : ∀ fd, Spec (At none (fd :: numbers) connections) (f fd) Q) :
    Spec (At none numbers connections) (checkFd call failure >>= f) Q := by
  apply Ensures.act (kept_at ..) fun fd => At none (fd.toList ++ numbers) connections
  · intro w answer fd w' hw h
    rcases hcall w answer fd w' h with ⟨rfl, rfl⟩ | ⟨rfl, rfl⟩
    · exact hw.opened
    · exact hw
  · intro fd
    cases fd with
    | some fd => exact hnext fd
    | none => exact .throw (kept_at ..) hthrow

/-- `processx__nonblock_fcntl()` never throws. -/
theorem nonblockFcntl_returns (set : Bool) :
    Spec (At none numbers connections) (nonblockFcntl set) fun r w =>
      (∃ n, r = .ok n) ∧ At none numbers connections w := by
  have hret : ∀ n : ℤ, Spec (At none numbers connections) (.ret n) fun r w =>
      (∃ n, r = .ok n) ∧ At none numbers connections w :=
    fun n => .ret (kept_at ..) fun w hw => ⟨⟨n, rfl⟩, hw⟩
  unfold nonblockFcntl
  apply Ensures.step (kept_at ..) (fun _ => At none numbers connections)
  · intro w answer r w' hw h
    exact harmless_getfl w answer r w' h ▸ hw
  rintro (errno | nonblock)
  · exact hret _
  · dsimp only
    split
    · exact hret 0
    · apply Ensures.step (kept_at ..) (fun _ => At none numbers connections)
      · intro w answer r w' hw h
        exact harmless_setfl w answer r w' h ▸ hw
      rintro (errno | _)
      · exact hret _
      · exact hret 0

/-- The rule for it. -/
theorem nonblockFcntl_spec (set : Bool) {f : ℤ → Call α}
    (hnext : ∀ r, Spec (At none numbers connections) (f r) Q) :
    Spec (At none numbers connections) (nonblockFcntl set >>= f) Q := by
  apply Ensures.bind (nonblockFcntl_returns set)
  · intro r
    exact (hnext r).conseq (fun w hw => hw.2) fun _ _ hw => hw
  · rintro failure w ⟨⟨n, h⟩, _⟩
    cases h

/-- With a descriptor that is open, a failure is a late one. -/
def Late (numbers : List ℕ) {α : Type} (r : Except Failure α) (w : World) : Prop :=
  (∃ connections, At none numbers connections w) ∧ ∀ failure, r = .error failure → ¬ failure.IsEarly

/-- A failure with a descriptor. -/
theorem late_error {failure : Failure} (hlate : ¬ failure.IsEarly) :
    ∀ w, At none numbers connections w → Late numbers (.error failure : Except Failure α) w := by
  intro w hw
  refine ⟨⟨connections, hw⟩, ?_⟩
  rintro failure' ⟨⟩
  exact hlate

/-- Success is no failure. -/
theorem late_ok {a : α} :
    ∀ w, At none numbers connections w → Late numbers (.ok a : Except Failure α) w :=
  fun _ hw => ⟨⟨connections, hw⟩, fun _ h => by cases h⟩

/-- `processx_c_connection_create()` closes nothing. -/
theorem cConnectionCreate_spec (osHandle : ℕ) (type : FileType) (encoding filename : String) :
    Spec (At none numbers connections)
      (cConnectionCreate osHandle type encoding filename : Call (NamedConnection σ))
      (Late numbers) := by
  apply check_spec (late_error (by decide))
  have hnamed : Spec (At none numbers connections)
      (do
        check sysCall .filename
        check sysCall .externalPtr
        Prog.lift (registerFinalizer osHandle)
        check sysCall .classAttribute
        .ret
          { cConnectionCreateEncoding osHandle encoding with type := type, filename := filename } :
          Call (NamedConnection σ)) (Late numbers) := by
    apply check_spec (late_error (by decide))
    apply check_spec (late_error (by decide))
    apply Ensures.act (kept_at ..) (fun _ => At none numbers (osHandle :: connections))
    · rintro w answer r w' hw ⟨⟩
      exact ⟨hw.handle, hw.holds, congrArg _ hw.connections⟩
    · intro _
      apply check_spec (late_error (by decide))
      exact .ret (kept_at ..) late_ok
  unfold copyEncoding
  by_cases hencoding : encoding ≠ "" ∧ encoding ≠ "binary"
  · rw [if_pos hencoding]
    exact check_spec (late_error (by decide)) hnamed
  · rw [if_neg hencoding]
    exact hnamed

/-- A failure behind the descriptor leaves it open. -/
theorem throwsClean_of_late {fd : ℕ} {r : Except Failure α} {w : World} (h : Late [fd] r w) :
    ThrowsClean r w := by
  obtain ⟨⟨connections, hat⟩, hlate⟩ := h
  cases r with
  | ok a => trivial
  | error failure =>
    refine iff_of_false ?_ (hlate failure rfl)
    rw [closed_iff hat]
    exact List.cons_ne_nil _ _

/-- A failure before there is a descriptor. -/
theorem throwsClean_of_early {failure : Failure} (hearly : failure.IsEarly) :
    ∀ w, At none [] connections w → ThrowsClean (.error failure : Except Failure α) w :=
  fun _ hw => iff_of_true ((closed_iff hw).mpr rfl) hearly

/-- A program behind the descriptor. -/
theorem late_spec {fd : ℕ} {p : Call α} (h : Spec (At none [fd] connections) p (Late [fd])) :
    Spec (At none [fd] connections) p ThrowsClean :=
  h.conseq (fun _ hw => hw) fun _ _ => throwsClean_of_late

/-- A socket is a connection in some state. -/
theorem createSocket_spec (osHandle : ℕ) (state : SocketState) (encoding filename : String) :
    Spec (At none numbers connections)
      (do
        let ccon ← cConnectionCreate osHandle .socket encoding filename
        .ret { ccon with state := state } : Call (NamedConnection σ)) (Late numbers) := by
  apply Ensures.bind (cConnectionCreate_spec osHandle .socket encoding filename)
  · intro ccon
    apply Ensures.conseq (R := fun w => ∃ connections, At none numbers connections w)
      (S := Late numbers) _ (fun w hw => hw.1) fun _ _ hw => hw
    apply Ensures.of_exists
    intro connections
    exact .ret (kept_at ..) late_ok
  · rintro failure w ⟨hat, hlate⟩
    exact ⟨hat, fun failure' h => hlate failure' (by cases h; rfl)⟩

/-- All ways out of a constructor. -/
theorem constructor_spec (c : Constructor) :
    Spec (At none [] []) (c.run : Call (NamedConnection σ)) ThrowsClean := by
  cases c with
  | createFifo read write filename encoding nonblocking =>
    apply check_spec (throwsClean_of_early (by decide))
    apply checkFd_spec (opening_openFifo _) (throwsClean_of_early (by decide))
    intro fd
    apply nonblockFcntl_spec
    intro _
    exact late_spec (cConnectionCreate_spec fd _ encoding filename)
  | connectFifo filename read write encoding nonblocking =>
    apply checkFd_spec (opening_openFifo _) (throwsClean_of_early (by decide))
    intro fd
    apply nonblockFcntl_spec
    intro _
    exact late_spec (cConnectionCreate_spec fd _ encoding filename)
  | createSocket sunPath filename encoding =>
    change Spec _ (connectionCreateSocket sunPath filename encoding) _
    unfold connectionCreateSocket
    split
    · exact .throw (kept_at ..) (throwsClean_of_early (by decide))
    · apply checkFd_spec opening_newSocket (throwsClean_of_early (by decide))
      intro fd
      apply late_spec
      apply check_spec (late_error (by decide))
      apply check_spec (late_error (by decide))
      apply nonblockFcntl_spec
      intro _
      exact createSocket_spec fd _ encoding filename
  | connectSocket filename encoding =>
    apply checkFd_spec opening_newSocket (throwsClean_of_early (by decide))
    intro fd
    apply late_spec
    apply nonblockFcntl_spec
    intro _
    apply check_spec (late_error (by decide))
    exact createSocket_spec fd _ encoding filename

/-- Whatever others do meanwhile: a constructor that throws leaves no descriptor of its own open
exactly if it has failed before it had one. -/
theorem constructor_leaves_nothing_iff (c : Constructor) (table : Table Unit) {failure : Failure}
    {w : World} (hrun : Runs World.move (c.run : Call (NamedConnection σ)) (.start table)
      (some (.error failure)) w) : Closed w ↔ failure.IsEarly :=
  (constructor_spec c _ _ w (at_start table) hrun).2 _ rfl

/-- Nobody else does anything. -/
def still (_ : World) (m : Empty) : Option World := m.elim

/-- The same numbers are open. -/
def SameOpen (table : Table Unit) (w : World) : Prop :=
  ∀ fd, (w.table.entry fd).isSome = (table.entry fd).isSome

/-- What was open before is open, and belongs to others. -/
def Extends (table : Table Unit) (w : World) : Prop :=
  ∀ fd, ((w.table.entry fd).map Entry.file = some .other) ↔ (table.entry fd).isSome = true

/-- At the start all descriptors belong to others. -/
theorem extends_start (table : Table Unit) : Extends table (.start table) := by
  intro fd
  rw [World.start, Table.entry_map]
  cases table.entry fd <;> simp

/-- A new descriptor belongs to the call. -/
theorem Extends.opened {table : Table Unit} {w : World} (h : Extends table w) :
    Extends table w.opened := by
  intro fd
  rw [← h fd]
  by_cases hnew : fd = w.table.lowestFree 0
  · rw [hnew]
    unfold World.opened Table.openFile
    rw [Table.entry_set_self, w.table.entry_lowestFree]
    simp
  · unfold World.opened Table.openFile
    rw [Table.entry_set_of_ne _ hnew]

/-- Then nothing else is open exactly if nothing of the call is. -/
theorem Extends.sameOpen_iff {table : Table Unit} {w : World} (h : Extends table w) :
    SameOpen table w ↔ Closed w := by
  constructor
  · intro hsame fd e hentry
    have hopen : (table.entry fd).isSome = true := by rw [← hsame, hentry]; rfl
    have hother := (h fd).mpr hopen
    rw [hentry] at hother
    exact Option.some.inj hother
  · intro hclosed fd
    rw [Bool.eq_iff_iff, ← h fd]
    cases hentry : w.table.entry fd with
    | none => simp
    | some e => simp [hclosed fd e hentry]

/-- An action that closes nothing. -/
def Opens {ρ : Type} (a : Act ρ) : Prop :=
  ∀ table w answer r w', Extends table w → a w answer = some (r, w') → Extends table w'

/-- An action that leaves the world alone closes nothing. -/
theorem Harmless.opens {ρ : Type} {a : Act ρ} (h : Harmless a) : Opens a :=
  fun _ w answer r w' hw ha => h w answer r w' ha ▸ hw

/-- A new descriptor closes nothing. -/
theorem Opening.opens {a : Act (Option ℕ)} (h : Opening a) : Opens a := by
  intro table w answer fd w' hw ha
  rcases h w answer fd w' ha with ⟨-, rfl⟩ | ⟨-, rfl⟩
  · exact hw.opened
  · exact hw

/-- Nor does the finalizer when it is registered. -/
theorem opens_registerFinalizer (osHandle : ℕ) : Opens (registerFinalizer osHandle) := by
  rintro table w answer r w' hw ⟨⟩
  exact hw

/-- A call that is checked closes nothing, whether it throws or not. -/
theorem check_opens (failure : Failure) : (check sysCall failure).Each Opens :=
  .step harmless_sysCall.opens fun ok => by cases ok <;> trivial

/-- Nor does one that opens a descriptor. -/
theorem checkFd_opens {call : Act (Option ℕ)} (hcall : Opening call) (failure : Failure) :
    (checkFd call failure).Each Opens :=
  .step hcall.opens fun fd => by cases fd <;> trivial

/-- Nor does `processx__nonblock_fcntl()`. -/
theorem nonblockFcntl_opens (set : Bool) : (nonblockFcntl set).Each Opens := by
  refine .step harmless_getfl.opens ?_
  rintro (errno | nonblock)
  · trivial
  · dsimp only
    split
    · trivial
    · exact .step harmless_setfl.opens fun r => by cases r <;> trivial

/-- Nor does `processx_c_connection_create()`. -/
theorem cConnectionCreate_opens (osHandle : ℕ) (type : FileType) (encoding filename : String) :
    (cConnectionCreate osHandle type encoding filename : Call (NamedConnection σ)).Each Opens := by
  have hcopy : (copyEncoding encoding).Each Opens := by
    unfold copyEncoding
    split
    · exact check_opens _
    · trivial
  refine .bind (check_opens _) fun _ => ?_
  refine .bind hcopy fun _ => ?_
  refine .bind (check_opens _) fun _ => ?_
  refine .bind (check_opens _) fun _ => ?_
  refine .step (opens_registerFinalizer osHandle) fun _ => ?_
  exact .bind (check_opens _) fun _ => by trivial

/-- Nor does any of the constructors. -/
theorem constructor_opens (c : Constructor) :
    (c.run : Call (NamedConnection σ)).Each Opens := by
  cases c with
  | createFifo read write filename encoding nonblocking =>
    refine .bind (check_opens _) fun _ => ?_
    refine .bind (checkFd_opens (opening_openFifo _) _) fun _ => ?_
    exact .bind (nonblockFcntl_opens _) fun _ => cConnectionCreate_opens ..
  | connectFifo filename read write encoding nonblocking =>
    refine .bind (checkFd_opens (opening_openFifo _) _) fun _ => ?_
    exact .bind (nonblockFcntl_opens _) fun _ => cConnectionCreate_opens ..
  | createSocket sunPath filename encoding =>
    change Prog.Each _ (connectionCreateSocket sunPath filename encoding)
    unfold connectionCreateSocket
    split
    · trivial
    · refine .bind (checkFd_opens opening_newSocket _) fun _ => ?_
      refine .bind (check_opens _) fun _ => ?_
      refine .bind (check_opens _) fun _ => ?_
      refine .bind (nonblockFcntl_opens _) fun _ => ?_
      exact .bind (cConnectionCreate_opens ..) fun _ => by trivial
  | connectSocket filename encoding =>
    refine .bind (checkFd_opens opening_newSocket _) fun _ => ?_
    refine .bind (nonblockFcntl_opens _) fun _ => ?_
    refine .bind (check_opens _) fun _ => ?_
    exact .bind (cConnectionCreate_opens ..) fun _ => by trivial

/-- **Failing constructors.** If nobody else opens or closes a descriptor, then the same ones are
open after a constructor has thrown as before the call, exactly if the path was too long or the
call failed that makes the FIFO, opens it or makes the socket. -/
theorem constructors_atomic_iff (c : Constructor) (table : Table Unit) {failure : Failure}
    {w : World} (hrun : Runs still (c.run : Call (NamedConnection σ)) (.start table)
      (some (.error failure)) w) : SameOpen table w ↔ failure.IsEarly := by
  have hkept : Kept still (fun _ => True) (Extends table) := ⟨fun _ m => m.elim, fun _ _ => trivial⟩
  have hextends := Ensures.each hkept ((constructor_opens (σ := σ) c).mono
    fun _ ha w answer r w' => ha table w answer r w')
  have hw := (hextends _ _ w (extends_start table) hrun).2 _ rfl
  rw [hw.sameOpen_iff]
  apply constructor_leaves_nothing_iff c table
  refine hrun.mono fun w w' => ?_
  rintro ⟨m, _⟩
  exact m.elim

/-- The path of a socket is too long. -/
theorem constructors_atomic_iff_path :
    ∃ w, Runs still ((Constructor.createSocket 3 "/tmp/s" "").run : Call (NamedConnection Unit))
        (.start standardStreams) (some (.error .path)) w ∧ SameOpen standardStreams w := by
  obtain ⟨w, hrun, _⟩ : ∃ w, Runs still
      ((Constructor.createSocket 3 "/tmp/s" "").run : Call (NamedConnection Unit))
      (.start standardStreams) (some (.error .path)) w ∧ (w.table.entry 3).isSome = false :=
    exists_run_of_drive [] (fun w : World => (w.table.entry 3).isSome) (by decide)
  exact ⟨w, hrun, (constructors_atomic_iff _ _ hrun).mpr (by decide)⟩

/-- Nobody listens at the other end: the new socket stays open. -/
theorem constructors_leak :
    ∃ w, Runs still ((Constructor.connectSocket "/tmp/s" "").run : Call (NamedConnection Unit))
        (.start standardStreams) (some (.error .connect)) w ∧
      (w.table.entry 3).isSome = true ∧ ¬ SameOpen standardStreams w := by
  have hrun : ∃ w, Runs still
      ((Constructor.connectSocket "/tmp/s" "").run : Call (NamedConnection Unit))
      (.start standardStreams) (some (.error .connect)) w ∧ (w.table.entry 3).isSome = true :=
    exists_run_of_drive (([.ok, .flags false, .ok, .fail 111] : List Answer).map .act)
      (fun w : World => (w.table.entry 3).isSome) (by decide)
  obtain ⟨w, hrun, hopen⟩ := hrun
  refine ⟨w, hrun, hopen, fun hsame => ?_⟩
  have hsame3 := hsame 3
  rw [hopen] at hsame3
  exact absurd hsame3 (by decide)

end Processx.Constructors
