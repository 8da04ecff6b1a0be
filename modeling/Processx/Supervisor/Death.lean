import Processx.Supervisor.Link

/-!
# After the death of the session

A session that dies writes nothing more. Its supervisor comes to its end in the round of its loop in
which it looks at its parent next. Before that it reads what is in the pipe, unless it has come to the
end of its reading in this round already. So no process that the session wanted to be watched is left
behind, except those of the lines that were written in between.
-/

namespace Processx

/-- The session has died, and the lines that are in the pipe will still be read, unless a signal or a
`kill` comes before them. -/
structure Link.CaughtUp (s : Link) (sent : List Request) : Prop where
  sound : s.Sound
  dead : s.parentAlive = false
  sent : s.sent = sent
  reads : s.place = .signals ∨ s.place = .lines ∨ s.pipe = [] ∨ s.signalled = true ∨
    s.heard.getLast? = some .kill

/-- At the death, if the supervisor is not between its reading and its look at the parent, or nothing is
in the pipe. -/
theorem Link.Sound.die {s : Link} (h : s.Sound) (long : LongRange) (halive : s.parentAlive = true)
    (hplace : s.place = .children ∨ s.place = .parent → s.pipe = []) :
    (s.next long .die).CaughtUp s.sent := by
  refine ⟨h.next long .die, rfl, rfl, ?_⟩
  show s.place = .signals ∨ s.place = .lines ∨ s.pipe = [] ∨ s.signalled = true ∨
    s.heard.getLast? = some .kill
  have hreason := h.reason halive
  cases hcase : s.place with
  | signals => exact Or.inl rfl
  | lines => exact Or.inr (Or.inl rfl)
  | children => exact Or.inr (Or.inr (Or.inl (hplace (Or.inl hcase))))
  | parent => exact Or.inr (Or.inr (Or.inl (hplace (Or.inr hcase))))
  | killing => exact Or.inr (Or.inr (Or.inr (hreason (Or.inl hcase))))
  | ended => exact Or.inr (Or.inr (Or.inr (hreason (Or.inr hcase))))

/-- A step of the supervisor after the death. -/
theorem Link.CaughtUp.turn (long : LongRange) {s : Link} {sent : List Request}
    (h : s.CaughtUp sent) (answers : LoopAnswers) : (s.turn long answers).CaughtUp sent := by
  have hsound := h.sound.turn long answers
  obtain ⟨hold, hdead, hsent, hreads⟩ := h
  unfold Link.turn at hsound ⊢
  cases hplace : s.place with
  | signals =>
    rw [hplace] at hsound
    refine ⟨hsound, hdead, hsent, ?_⟩
    dsimp only
    by_cases hsignalled : s.signalled = true
    · exact Or.inr (Or.inr (Or.inr (Or.inl hsignalled)))
    · exact Or.inr (Or.inl (if_neg hsignalled))
  | lines =>
    rw [hplace] at hsound
    have hrunning := hold.running (by rw [hplace]; decide) (by rw [hplace]; decide)
    rcases hold.fgets_cases with ⟨hnone, hempty⟩ | ⟨done, request, pending, _, hheard, hsome, -⟩
    · rw [hnone] at hsound ⊢
      exact ⟨hsound, hdead, hsent, Or.inr (Or.inr (Or.inl hempty))⟩
    · rw [hsome] at hsound ⊢
      refine ⟨hsound, hdead, hsent, ?_⟩
      have hheeds := hold.keeps.readLine_request long hold.erange hrunning request
      dsimp only
      by_cases hexit : (s.supervisor.readLine long request.line).exiting = true
      · obtain rfl := hheeds.exiting.mp hexit
        refine Or.inr (Or.inr (Or.inr (Or.inr ?_)))
        rw [List.getLast?_concat, (Request.lineCommand_line long .kill).1]
        rfl
      · exact Or.inr (Or.inl (if_neg hexit))
  | children =>
    rw [hplace] at hsound hreads
    exact ⟨hsound, hdead, hsent, by simpa using hreads⟩
  | parent =>
    rw [hplace] at hsound hreads
    dsimp only at hsound ⊢
    split_ifs at hsound ⊢
    · exact ⟨hsound, hdead, hsent, Or.inl rfl⟩
    · exact ⟨hsound, hdead, hsent, by simpa using hreads⟩
  | killing =>
    rw [hplace] at hsound hreads
    dsimp only at hsound ⊢
    cases hkill : killChildren .unix answers.now answers.rounds answers.final
      s.supervisor.children with
    | none => exact ⟨hold, hdead, hsent, by rw [hplace]; exact hreads⟩
    | some shutdown =>
      rw [hkill] at hsound
      exact ⟨hsound, hdead, hsent, by simpa using hreads⟩
  | ended => exact ⟨hold, hdead, hsent, hreads⟩

/-- The dead session writes nothing. -/
theorem Link.CaughtUp.next (long : LongRange) {s : Link} {sent : List Request}
    (h : s.CaughtUp sent) (event : LinkEvent) : (s.next long event).CaughtUp sent := by
  cases event with
  | write request =>
    unfold Link.next
    rw [h.dead]
    exact h
  | die => exact ⟨h.sound.next long .die, rfl, h.sent, h.reads⟩
  | signal =>
    exact ⟨h.sound.next long .signal, h.dead, h.sent, Or.inr (Or.inr (Or.inr (Or.inl rfl)))⟩
  | turn answers => exact h.turn long answers

/-- A supervisor that has read everything stays so, whatever happens later. -/
theorem Link.CaughtUp.run (long : LongRange) {s : Link} {sent : List Request} (h : s.CaughtUp sent)
    (events : List LinkEvent) : (s.run long events).CaughtUp sent :=
  Link.run_keeps (P := fun s => s.CaughtUp sent) (fun _ event h => h.next long event) h events

/-- The answers from which the supervisor can tell that the session is dead, and during which the
five seconds of `kill_children()` pass. -/
def LoopAnswers.Decisive (answers : LoopAnswers) : Prop :=
  pidIsRunning answers.parent = false ∧ ∃ round ∈ answers.rounds, answers.now + 5 ≤ round.time

/-- How many steps the supervisor of a dead session still makes, at most, when there are some bytes in
the pipe. -/
def LoopPlace.left (bytes : ℕ) : LoopPlace → ℕ
  | .signals => bytes + 5
  | .lines => bytes + 4
  | .children => 3
  | .parent => 2
  | .killing => 1
  | .ended => 0

def Link.left (s : Link) : ℕ := s.place.left s.pipe.length

/-- A step of the supervisor of a dead session, when it is not at its end yet. -/
theorem Link.left_turn (long : LongRange) {s : Link} (h : s.Sound) (hdead : s.parentAlive = false)
    {answers : LoopAnswers} (hanswers : answers.Decisive) (hplace : s.place ≠ .ended) :
    (s.turn long answers).left < s.left := by
  obtain ⟨hparent, hrounds⟩ := hanswers
  unfold Link.turn Link.left
  cases hcase : s.place with
  | signals =>
    dsimp only
    split_ifs <;> (simp only [LoopPlace.left]; omega)
  | lines =>
    dsimp only
    rcases h.fgets_cases with ⟨hnone, -⟩ | ⟨done, request, pending, -, -, hsome, hpipe⟩
    · rw [hnone]
      simp only [LoopPlace.left]
      omega
    · have hline : 0 < request.line.length := by simp [Request.line]
      rw [hsome, hpipe, List.length_append]
      dsimp only
      split_ifs <;> (simp only [LoopPlace.left]; omega)
  | children => exact Nat.lt_succ_self 2
  | parent =>
    rw [hdead, hparent]
    exact Nat.lt_succ_self 1
  | killing =>
    obtain ⟨shutdown, hshutdown⟩ := Option.isSome_iff_exists.mp
      (@killChildren_isSome .unix _ _ answers.final s.supervisor.children hrounds)
    rw [hshutdown]
    exact Nat.lt_succ_self 0
  | ended => exact absurd hcase hplace

/-- Whether an event is a step of the supervisor. -/
def LinkEvent.isTurn : LinkEvent → Bool
  | .turn _ => true
  | _ => false

/-- **After the death of the session the supervisor ends**, after as many steps as the lines in the
pipe and the rest of one round of its loop need. -/
theorem Link.CaughtUp.ends (long : LongRange) {s : Link} {sent : List Request}
    (h : s.CaughtUp sent) {events : List LinkEvent}
    (hdecisive : ∀ answers, .turn answers ∈ events → answers.Decisive)
    (hturns : s.left ≤ events.countP LinkEvent.isTurn) : (s.run long events).place = .ended := by
  induction events generalizing s with
  | nil =>
    show s.place = .ended
    have hzero : s.left = 0 := Nat.le_zero.mp hturns
    unfold Link.left at hzero
    cases hcase : s.place <;> rw [hcase] at hzero <;> simp [LoopPlace.left] at hzero
  | cons event events ih =>
    refine ih (h.next long event) (fun answers hmem => hdecisive answers (.tail _ hmem)) ?_
    rw [List.countP_cons] at hturns
    cases event with
    | turn answers =>
      by_cases hplace : s.place = .ended
      · have hsame : s.next long (.turn answers) = s := by
          unfold Link.next Link.turn
          dsimp only
          rw [hplace]
        have hzero : s.left = 0 := by
          rw [Link.left, hplace, LoopPlace.left]
        rw [hsame, hzero]
        exact Nat.zero_le _
      · have hless := Link.left_turn long h.sound h.dead
          (hdecisive answers List.mem_cons_self) hplace
        have hone : (if LinkEvent.isTurn (.turn answers) = true then 1 else 0) = 1 := rfl
        rw [hone] at hturns
        show (s.turn long answers).left ≤ _
        omega
    | write request =>
      unfold Link.next
      rw [h.dead]
      simpa [LinkEvent.isTurn] using hturns
    | die => exact hturns
    | signal => exact hturns

/-- At its end such a supervisor has read all that was sent, if no signal ended it and if nothing was
sent behind a `kill`. -/
theorem Link.CaughtUp.heard_all {s : Link} {sent : List Request} (h : s.CaughtUp sent)
    (hended : s.place = .ended) (hsignalled : s.signalled = false)
    (hkill : ∀ done pending, sent = done ++ pending → done.getLast? = some .kill → pending = []) :
    s.heard = sent.map Request.command := by
  obtain ⟨done, pending, hsent, hheard, hpipe⟩ := h.sound.inOrder
  rw [h.sent] at hsent
  have hempty : pending = [] := by
    have hreads := h.reads
    rw [hended, hsignalled] at hreads
    obtain hnil | hlast : s.pipe = [] ∨ s.heard.getLast? = some .kill := by simpa using hreads
    · rw [hpipe] at hnil
      cases pending with
      | nil => rfl
      | cons request pending => simp [Request.line] at hnil
    · refine hkill done pending hsent ?_
      rw [hheard, List.getLast?_map] at hlast
      obtain ⟨request, hrequest, hcommand⟩ := Option.map_eq_some_iff.mp hlast
      rw [hrequest]
      cases request <;> first | rfl | cases hcommand
  rw [hheard, hsent, hempty, List.append_nil]

/-- Then it settles what the session has asked for last. -/
theorem Link.CaughtUp.settles {s : Link} {sent : List Request} (h : s.CaughtUp sent)
    (hended : s.place = .ended) (hexceeded : s.exceeded = false)
    (hheard : s.heard = sent.map Request.command) :
    ∃ shutdown, s.shutdown = some shutdown ∧
      ∀ pid, LastWord.holds (sent.flatMap Request.words) pid = true → pid ∉ s.swept →
        shutdown.Settles pid := by
  obtain ⟨shutdown, hshutdown, hdone⟩ := h.sound.done hended
  refine ⟨shutdown, hshutdown, fun pid hholds hswept => ?_⟩
  refine hdone.settles ((h.sound.tracks hexceeded pid).mpr (h.sound.told pid hswept ?_))
  rw [hheard, List.flatMap_map]
  exact hholds

/-- **Nobody outlives the session.** When the session dies, the supervisor is not between the end of its
reading and its look at the parent, or nothing is in the pipe. Then, whatever happens after the death,
the supervisor comes to its end. If no signal ends it before, no line is refused for want of room and
nothing was sent behind a `kill`, it has read all that was sent, and it settles each process that the
session asked for last to watch, unless a sweep has found it stopped. -/
theorem link_outlived (long : LongRange) (cells : ℕ → ℤ) (before after : List LinkEvent)
    (halive : ((Link.start cells).run long before).parentAlive = true)
    (hplace : ((Link.start cells).run long before).place = .children ∨
      ((Link.start cells).run long before).place = .parent →
        ((Link.start cells).run long before).pipe = [])
    (hdecisive : ∀ answers, .turn answers ∈ after → answers.Decisive)
    (hturns : ((Link.start cells).run long before).left ≤ after.countP LinkEvent.isTurn) :
    let sent := ((Link.start cells).run long before).sent
    let s := (Link.start cells).run long (before ++ .die :: after)
    s.place = .ended ∧ (s.signalled = false → s.exceeded = false →
      (∀ done pending, sent = done ++ pending → done.getLast? = some .kill → pending = []) →
      s.heard = sent.map Request.command ∧
      ∃ shutdown, s.shutdown = some shutdown ∧
        ∀ pid, LastWord.holds (sent.flatMap Request.words) pid = true → pid ∉ s.swept →
          shutdown.Settles pid) := by
  intro sent s
  have hdied : (((Link.start cells).run long before).next long .die).CaughtUp sent :=
    (Link.sound_run long cells before).die long halive hplace
  have hrun : s = (((Link.start cells).run long before).next long .die).run long after :=
    Link.run_append long _ before (.die :: after)
  rw [hrun]
  have hcaught := hdied.run long after
  have hended := hdied.ends long hdecisive hturns
  refine ⟨hended, fun hsignalled hexceeded hkill => ?_⟩
  have hheard := hcaught.heard_all hended hsignalled hkill
  exact ⟨hheard, hcaught.settles hended hexceeded hheard⟩

/-- Two processes, one of which was to be watched only just before the death. It is the one that does
not stop in time. -/
theorem link_outlived_two :
    let answers : LoopAnswers := ⟨false, fun _ => .ok, .esrch, 0,
      [⟨fun i => if i = 0 then .kill .esrch else .kill .ok, 5⟩], fun _ => .kill .ok⟩
    let before : List LinkEvent := .write (.watch ⟨42, by decide⟩) ::
      List.replicate 6 (.turn answers) ++ [.write (.watch ⟨43, by decide⟩)]
    let s := (Link.start fun _ => 0).run long64 (before ++ .die :: List.replicate 8 (.turn answers))
    s.place = .ended ∧ ∃ shutdown, s.shutdown = some shutdown ∧ shutdown.Settles 42 ∧
      shutdown.Settles 43 ∧ shutdown.hard = [⟨.sigkill, 43⟩] := by
  intro answers before s
  have hdecisive : answers.Decisive := ⟨rfl, _, List.mem_cons_self, by decide⟩
  obtain ⟨hended, hrest⟩ := link_outlived long64 (fun _ => 0) before
    (List.replicate 8 (.turn answers)) (by decide +kernel) (by decide +kernel)
    (fun other hmem => by
      obtain rfl := LinkEvent.turn.inj (List.eq_of_mem_replicate hmem)
      exact hdecisive)
    (by decide +kernel)
  have hnoKill : ∀ done pending, ((Link.start fun _ => 0).run long64 before).sent = done ++ pending →
      done.getLast? = some .kill → pending = [] := by
    intro done pending hsent hlast
    have hmem : .kill ∈ ((Link.start fun _ => 0).run long64 before).sent :=
      hsent ▸ List.mem_append_left _ (List.mem_of_getLast? hlast)
    exact absurd hmem (by decide +kernel)
  obtain ⟨-, shutdown, hshutdown, hsettles⟩ := hrest (by decide +kernel) (by decide +kernel) hnoKill
  refine ⟨hended, shutdown, hshutdown, hsettles 42 (by decide +kernel) (by decide +kernel),
    hsettles 43 (by decide +kernel) (by decide +kernel), ?_⟩
  have hhard : s.shutdown.map Shutdown.hard = some [⟨.sigkill, 43⟩] := by decide +kernel
  rw [hshutdown] at hhard
  exact Option.some.inj hhard

/-- A line that is written between the end of the reading and the death is lost. -/
example :
    let answers : LoopAnswers := ⟨false, fun _ => .ok, .esrch, 0, [⟨fun _ => .kill .ok, 5⟩],
      fun _ => .kill .ok⟩
    let s := (Link.start fun _ => 0).run long64 (List.replicate 2 (.turn answers) ++
      .write (.watch ⟨42, by decide⟩) :: .die :: List.replicate 3 (.turn answers))
    s.place = .ended ∧ s.sent = [.watch ⟨42, by decide⟩] ∧ s.heard = [] := by
  decide +kernel

end Processx
