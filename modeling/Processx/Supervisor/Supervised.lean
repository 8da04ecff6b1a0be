import Processx.Supervisor.Session

/-!
# The session with all its supervisors

The session runs side by side with all the supervisors that it has started, and each of them goes
round its loop at its own pace. Whatever calls were made before the session dies, each process that its
object calls supervised is settled then by the supervisor that was told to watch it.
-/

namespace Processx

/-- The session, whether it lives, and what it shares with each of its supervisors. -/
structure Supervision where
  session : Session
  alive : Bool
  links : ℕ → Link

def Supervision.start (cells : ℕ → ℕ → ℤ) : Supervision :=
  ⟨.start, true, fun n => .start (cells n)⟩

/-- What can happen: a call in the session, its death, a signal to a supervisor or one of its steps. -/
inductive SupervisionEvent
  | call (call : SessionCall)
  | die
  | signal (n : ℕ)
  | turn (n : ℕ) (answers : LoopAnswers)

/-- An event of one supervisor, if it was started. -/
def Supervision.nextLink (long : LongRange) (s : Supervision) (n : ℕ) (event : LinkEvent) :
    Supervision :=
  if n < s.session.created then
    { s with links := fun m => if m = n then (s.links m).next long event else s.links m }
  else s

/-- An event. What a call writes goes into the pipes. -/
def Supervision.next (long : LongRange) (pid : ℕ → WatchedPid) (s : Supervision) :
    SupervisionEvent → Supervision
  | .call call =>
    if s.alive then
      let session := s.session.call pid call
      { s with
        session := session
        links := fun n => (s.links n).run long
          (((session.sent n).drop (s.session.sent n).length).map .write) }
    else s
  | .die => { s with alive := false, links := fun n => (s.links n).next long .die }
  | .signal n => s.nextLink long n .signal
  | .turn n answers => s.nextLink long n (.turn answers)

def Supervision.run (long : LongRange) (pid : ℕ → WatchedPid) (s : Supervision)
    (events : List SupervisionEvent) : Supervision :=
  events.foldl (Supervision.next long pid) s

/-- The invariant while the session lives. -/
structure Supervision.Right (pid : ℕ → WatchedPid) (s : Supervision) : Prop where
  session : s.session.Right pid
  sound : ∀ n, (s.links n).Sound
  sent : ∀ n, (s.links n).sent = s.session.sent n
  alive : ∀ n, (s.links n).parentAlive = s.alive

/-- Requests that a living session writes. -/
theorem Link.run_writes (long : LongRange) {s : Link} (halive : s.parentAlive = true)
    (requests : List Request) :
    (s.run long (requests.map .write)).sent = s.sent ++ requests ∧
      (s.run long (requests.map .write)).parentAlive = true := by
  induction requests generalizing s with
  | nil => exact ⟨(List.append_nil _).symm, halive⟩
  | cons request requests ih =>
    have hnext : s.next long (.write request) =
        { s with pipe := s.pipe ++ request.line, sent := s.sent ++ [request] } := if_pos halive
    obtain ⟨hsent, halive'⟩ := @ih (s.next long (.write request)) (by rw [hnext]; exact halive)
    refine ⟨hsent.trans ?_, halive'⟩
    rw [hnext, List.append_assoc]
    rfl

/-- What was sent to a supervisor, and whether the session lives, by one of its events. -/
theorem Link.next_frame (long : LongRange) (s : Link) {event : LinkEvent}
    (hevent : event = .signal ∨ ∃ answers, event = .turn answers) :
    (s.next long event).sent = s.sent ∧ (s.next long event).parentAlive = s.parentAlive := by
  rcases hevent with rfl | ⟨answers, rfl⟩
  · exact ⟨rfl, rfl⟩
  · unfold Link.next Link.turn
    dsimp only
    cases s.place with
    | lines =>
      dsimp only
      cases fgets inputBufLen s.pipe with
      | none => exact ⟨rfl, rfl⟩
      | some line => exact ⟨rfl, rfl⟩
    | parent =>
      dsimp only
      split_ifs <;> exact ⟨rfl, rfl⟩
    | killing =>
      dsimp only
      cases killChildren .unix answers.now answers.rounds answers.final s.supervisor.children with
      | none => exact ⟨rfl, rfl⟩
      | some shutdown => exact ⟨rfl, rfl⟩
    | _ => exact ⟨rfl, rfl⟩

variable {pid : ℕ → WatchedPid} {long : LongRange} {world : Supervision}

/-- The invariant survives a signal to a supervisor and a turn of its loop. -/
theorem Supervision.Right.nextLink (h : world.Right pid) (n : ℕ) {event : LinkEvent}
    (hevent : event = .signal ∨ ∃ answers, event = .turn answers) :
    (world.nextLink long n event).Right pid := by
  unfold Supervision.nextLink
  by_cases hborn : n < world.session.created
  · rw [if_pos hborn]
    refine ⟨h.session, fun m => ?_, fun m => ?_, fun m => ?_⟩
    all_goals dsimp only; split_ifs
    · exact (h.sound m).next long event
    · exact h.sound m
    · exact ((world.links m).next_frame long hevent).1.trans (h.sent m)
    · exact h.sent m
    · exact ((world.links m).next_frame long hevent).2.trans (h.alive m)
    · exact h.alive m
  · rwa [if_neg hborn]

/-- **One event** keeps the invariant. -/
theorem Supervision.Right.next (h : world.Right pid) (event : SupervisionEvent) :
    (world.next long pid event).Right pid := by
  cases event with
  | call call =>
    unfold Supervision.next
    dsimp only
    by_cases halive : world.alive = true
    · rw [if_pos halive]
      have hlinks := fun n => (world.links n).run_writes long ((h.alive n).trans halive)
        (((world.session.call pid call).sent n).drop (world.session.sent n).length)
      refine ⟨h.session.call call, fun n => ?_, fun n => ?_, fun n => ?_⟩
      · exact Link.run_keeps (fun _ event h => h.next long event) (h.sound n) _
      · refine (hlinks n).1.trans ?_
        rw [h.sent n]
        exact List.prefix_iff_eq_append.mp (Session.sent_call pid world.session call n)
      · exact (hlinks n).2.trans halive.symm
    · rwa [if_neg halive]
  | die => exact ⟨h.session, fun n => (h.sound n).next long .die, h.sent, fun _ => rfl⟩
  | signal n => exact h.nextLink n (Or.inl rfl)
  | turn n answers => exact h.nextLink n (Or.inr ⟨answers, rfl⟩)

/-- Every run keeps it. -/
theorem Supervision.right_run (long : LongRange) (pid : ℕ → WatchedPid) (cells : ℕ → ℕ → ℤ)
    (events : List SupervisionEvent) :
    ((Supervision.start cells).run long pid events).Right pid := by
  suffices hfold : ∀ world : Supervision, world.Right pid →
      (events.foldl (Supervision.next long pid) world).Right pid from
    hfold _ ⟨Session.right_start pid, fun n => Link.sound_start (cells n), fun _ => rfl, fun _ => rfl⟩
  induction events with
  | nil => exact fun _ h => h
  | cons event events ih => exact fun _ h => ih _ (h.next event)

/-- After the death of the session: it stays as it was, and its supervisors catch up. -/
structure Supervision.Orphaned (session : Session) (world : Supervision) : Prop where
  same : world.session = session
  dead : world.alive = false
  caughtUp : ∀ n, session.started n = true → (world.links n).CaughtUp (session.sent n)

/-- What an event is to one of the supervisors. -/
def SupervisionEvent.toLink (n : ℕ) : SupervisionEvent → Option LinkEvent
  | .call _ => none
  | .die => some .die
  | .signal m => if m = n then some .signal else none
  | .turn m answers => if m = n then some (.turn answers) else none

/-- One event after the death is one event of each supervisor that it is about. -/
theorem Supervision.Orphaned.next {session : Session} (h : world.Orphaned session)
    (event : SupervisionEvent) :
    (world.next long pid event).Orphaned session ∧
      ∀ n < session.created, ((world.next long pid event).links n) =
        (world.links n).run long (event.toLink n).toList := by
  have hlink : ∀ n event, (world.nextLink long n event).Orphaned session ∧
      ∀ m < session.created, (world.nextLink long n event).links m =
        if n = m then (world.links m).next long event else world.links m := by
    intro n event
    unfold Supervision.nextLink
    rw [h.same]
    by_cases hborn : n < session.created
    · rw [if_pos hborn]
      refine ⟨⟨rfl, h.dead, fun m hm => ?_⟩, fun m _ => by simp only [eq_comm]⟩
      dsimp only
      split_ifs
      · exact (h.caughtUp m hm).next long event
      · exact h.caughtUp m hm
    · rw [if_neg hborn]
      exact ⟨h, fun m hm => by rw [if_neg (by omega)]⟩
  cases event with
  | call call =>
    unfold Supervision.next
    rw [h.dead]
    exact ⟨h, fun _ _ => rfl⟩
  | die =>
    exact ⟨⟨h.same, rfl, fun n hn => (h.caughtUp n hn).next long .die⟩, fun _ _ => rfl⟩
  | signal n =>
    refine ⟨(hlink n .signal).1, fun m hm => ((hlink n .signal).2 m hm).trans ?_⟩
    unfold SupervisionEvent.toLink
    dsimp only
    split_ifs <;> rfl
  | turn n answers =>
    refine ⟨(hlink n (.turn answers)).1, fun m hm => ((hlink n (.turn answers)).2 m hm).trans ?_⟩
    unfold SupervisionEvent.toLink
    dsimp only
    split_ifs <;> rfl

/-- The same for runs. -/
theorem Supervision.Orphaned.run {session : Session} (h : world.Orphaned session)
    (events : List SupervisionEvent) {n : ℕ} (hn : n < session.created) :
    ((world.run long pid events).links n) =
      (world.links n).run long (events.filterMap (SupervisionEvent.toLink n)) := by
  induction events generalizing world with
  | nil => rfl
  | cons event events ih =>
    obtain ⟨hnext, hlinks⟩ := @Supervision.Orphaned.next pid long _ _ h event
    refine (ih hnext).trans ?_
    rw [hlinks n hn, ← Link.run_append]
    cases hevent : event.toLink n with
    | none => rw [List.filterMap_cons_none hevent]; rfl
    | some linkEvent => rw [List.filterMap_cons_some hevent]; rfl

end Processx
