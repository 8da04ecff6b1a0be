import Processx.Win.Notify

/-!
# No wake-up is lost

In a poll with sockets of curl the main thread waits for the sockets while the I/O thread waits for a
packet. When the main thread is done with its part, the I/O thread does not have to wait for anything
else: it is past the queue, or a packet is there. Two things can go wrong: without a pair of notify
sockets nobody is woken up, and `send()` waits if the socket is full.
-/

namespace Processx.Win.Thread

open Interruptible

/-- How far the I/O thread is with a command. -/
def World.stage {Os P : Type} (w : World Os P) : ℕ :=
  match w.iocpThread with
  | none => 0
  | some .waiting => if w.done then 8 else 0
  | some .beginning => 1
  | some .switching => 2
  | some .getting => 3
  | some (.notifying _) => 4
  | some .checking => 5
  | some .idling => 6
  | some .signalling => 7

/-- The sockets of the package that were lost, as numbers of messages and of closed sockets. -/
def Net.harm (net : Net) : ℕ × ℕ := (net.misdirected, net.misclosed)

/-- The notify sockets that could be made are open, and those of the package. -/
structure Net.Owns (net : Net) : Prop where
  first : net.notifySocket.1 ≠ 0 → net.sockets net.notifySocket.1 = some .package
  second : net.notifySocket.2 ≠ 0 → net.sockets net.notifySocket.2 = some .package
  both : net.notifySocket.2 ≠ 0 → net.notifySocket.1 ≠ 0

/-- The I/O thread is in `send()`, and the notify socket is full. -/
def World.full (w : World Net ℕ) : Prop :=
  (∃ error, w.iocpThread = some (.notifying error)) ∧ w.os.room < w.os.inbox + 2

/-- If the main thread waits for nothing but the I/O thread, then that one is done, or its next step
can succeed at once, unless there is no pair of notify sockets, or they are full. -/
def Live (w : World Net ℕ) : Prop :=
  w.joining = true → w.done = true ∨ (callbackStep netKernel w .ok).isSome ∨
    w.os.notifySocket.2 = 0 ∨ w.full

/-- At any moment. -/
structure Healthy (w : World Net ℕ) : Prop where
  race : w.race = false
  goes : w.Goes
  live : Live w

/-- At any moment of a poll with curl, which does no harm. -/
def Unharmed (harm : ℕ × ℕ) (w : World Net ℕ) : Prop := Healthy w ∧ w.os.harm = harm

/-- The I/O thread does a command while the main thread waits for sockets, or has `joined` it. -/
structure Turn (cmd : Command) (joined : Bool) (harm : ℕ × ℕ) (w : World Net ℕ) : Prop where
  race : w.race = false
  thread : w.iocpThread ≠ none
  start : w.start = true ↔ w.iocpThread = some .waiting ∧ w.done = false
  done : w.done = true → w.iocpThread = some .waiting
  joining : w.joining = joined
  stored : w.stage ≤ 2 → w.cells.cmd = cmd
  command : cmd = .init ∨ cmd = .getstatus
  stage : cmd = .init → w.stage ≠ 3 ∧ w.stage ≠ 4
  owns : w.os.Owns
  harm : w.os.harm = harm
  inbox : w.os.inReadfds = true → w.os.inbox = 0 ∨
    w.os.notifySocket.2 ≠ 0 ∧ cmd = .getstatus ∧ 4 < w.stage ∧ w.os.inbox ≤ 2
  ready : joined = true → w.os.notifySocket.2 ≠ 0 → w.stage ≤ 3 → w.os.queue ≠ []
  received : joined = true → w.os.inReadfds = true →
    w.os.inbox = 0 ∧ (w.os.notifySocket.2 ≠ 0 → 4 < w.stage)

variable {cmd : Command} {joined : Bool} {harm : ℕ × ℕ} {w w' : World Net ℕ}

/-- There is a packet for the I/O thread, if it asks for one. -/
theorem getQueued_isSome {net : Net} (hnet : net.queue ≠ []) :
    (Net.getQueuedCompletionStatus net .ok).isSome := by
  unfold Net.getQueuedCompletionStatus
  cases hqueue : net.queue with
  | nil => exact absurd hqueue hnet
  | cons packet queue => cases packet <;> rfl

/-- In each place the I/O thread can go on, but for the two exceptions. -/
theorem Turn.live (hw : Turn cmd joined harm w) : Live w := by
  intro hjoining
  have hjoined : joined = true := hw.joining ▸ hjoining
  by_cases hmade : w.os.notifySocket.2 = 0
  · exact Or.inr (Or.inr (Or.inl hmade))
  cases hplace : w.iocpThread with
  | none => exact absurd hplace hw.thread
  | some place =>
    cases place with
    | waiting =>
      cases hdone : w.done with
      | true => exact Or.inl rfl
      | false =>
        have hstart : w.start = true := hw.start.mpr ⟨hplace, hdone⟩
        simp [callbackStep, hplace, hstart]
    | switching =>
      right
      have hcmd : w.cells.cmd = cmd := hw.stored (by simp [World.stage, hplace])
      rcases hw.command with rfl | rfl <;>
        simp [callbackStep, hplace, hcmd, netKernel, Net.quietCall]
    | getting =>
      right
      have hqueue := getQueued_isSome (hw.ready hjoined hmade (by simp [World.stage, hplace]))
      exact Or.inl (by simpa [callbackStep, hplace, netKernel] using hqueue)
    | notifying error =>
      right
      by_cases hroom : w.os.inbox + 2 ≤ w.os.room
      · left
        simp only [callbackStep, hplace, netKernel]
        split_ifs
        · simp only [Option.isSome_map, Net.send]
          split <;> simp [hroom]
        · rfl
      · exact Or.inr (Or.inr ⟨⟨error, hplace⟩, not_le.mp hroom⟩)
    | beginning | checking | idling | signalling => simp [callbackStep, hplace]

/-- During a command all is well. -/
theorem Turn.healthy (hw : Turn cmd joined harm w) : Healthy w where
  race := hw.race
  goes _ := by
    cases hdone : w.done with
    | true => exact Or.inl rfl
    | false =>
      obtain ⟨place, hplace⟩ := Option.ne_none_iff_exists'.mp hw.thread
      refine Or.inr ⟨place, hplace, ?_⟩
      rintro rfl
      exact hw.start.mpr ⟨hplace, hdone⟩
  live := hw.live

/-- Something happens that changes neither the sockets of the package nor the queue, but for new
packets. -/
theorem Net.move_spec {net net' : Net} {n : Happening} (h : net.move n = some net') :
    net'.harm = net.harm ∧ net'.inReadfds = net.inReadfds ∧ net'.inbox = net.inbox ∧
      net'.notifySocket = net.notifySocket ∧ (net.queue ≠ [] → net'.queue ≠ []) ∧
      ∀ s, net.sockets s = some .package → net'.sockets s = some .package := by
  have hset : ∀ socket owner s, net.sockets socket ≠ some .package →
      net.sockets s = some .package → (net.setSocket socket owner).sockets s = some .package := by
    intro socket owner s hsocket hs
    have hne : s ≠ socket := by
      rintro rfl
      exact hsocket hs
    simpa [Net.setSocket, hne] using hs
  cases n with
  | arrive con error =>
    obtain rfl := Option.some.inj h
    simp [Net.harm]
  | open_ socket =>
    simp only [Net.move] at h
    split_ifs at h with hfree
    obtain rfl := Option.some.inj h
    exact ⟨rfl, rfl, rfl, rfl, id, fun s => hset socket _ s (by simp [hfree.2])⟩
  | close socket =>
    simp only [Net.move] at h
    split_ifs at h with hother
    obtain rfl := Option.some.inj h
    exact ⟨rfl, rfl, rfl, rfl, id, fun s => hset socket _ s (by simp [hother])⟩

/-- What happens to other sockets leaves the notify sockets alone. -/
theorem Net.Owns.move {net net' : Net} {n : Happening} (hnet : net.Owns)
    (h : net.move n = some net') : net'.Owns := by
  obtain ⟨-, -, -, hnumbers, -, hsockets⟩ := Net.move_spec h
  constructor
  all_goals intro hne; rw [hnumbers] at hne ⊢
  · exact hsockets _ (hnet.first hne)
  · exact hsockets _ (hnet.second hne)
  · exact hnet.both hne

/-- What happens meanwhile is no part of the command, and disturbs nothing of it. -/
theorem Turn.move {n : Happening} {net : Net} (hw : Turn cmd joined harm w)
    (h : w.os.move n = some net) : Turn cmd joined harm { w with os := net } := by
  obtain ⟨hharm, hset, hinbox, hnumbers, hqueue, -⟩ := Net.move_spec h
  refine ⟨hw.race, hw.thread, hw.start, hw.done, hw.joining, hw.stored, hw.command, hw.stage,
    hw.owns.move h, hharm.trans hw.harm, fun hin => ?_, fun hj hmade hs => ?_, fun hj hin => ?_⟩
  · rw [hinbox, hnumbers]
    exact hw.inbox (hset.symm.trans hin)
  · rw [hnumbers] at hmade
    exact hqueue (hw.ready hj hmade hs)
  · rw [hinbox, hnumbers]
    exact hw.received hj (hset.symm.trans hin)

/-- A call that does nothing here changes nothing. -/
theorem quietCall_spec {net net' : Net} {d : Outcome} {error : Option ErrorCode}
    (h : Net.quietCall net d = some (error, net')) : net' = net := by
  cases d with
  | ok => exact (Prod.mk.inj (Option.some.inj h)).2.symm
  | fail e =>
    simp only [Net.quietCall, Net.failure] at h
    split_ifs at h
    exact (Prod.mk.inj (Option.some.inj h)).2.symm
  | sockets => cases h

/-- `GetQueuedCompletionStatus()` changes nothing but the queue. -/
theorem getQueued_spec {net net' : Net} {d : Outcome} {result : Option ErrorCode × Option ℕ}
    (h : Net.getQueuedCompletionStatus net d = some (result, net')) :
    ∃ queue, net' = { net with queue := queue } := by
  unfold Net.getQueuedCompletionStatus at h
  split at h
  · exact ⟨_, (Prod.mk.inj (Option.some.inj h)).2.symm⟩
  · exact ⟨_, (Prod.mk.inj (Option.some.inj h)).2.symm⟩
  · split_ifs at h
    exact ⟨net.queue, (Prod.mk.inj (Option.some.inj h)).2.symm⟩
  · cases h

/-- The message goes to the other notify socket, if there is one. -/
theorem send_spec {net net' : Net} {d : Outcome} {error : Option ErrorCode} (hnet : net.Owns)
    (h : Net.send net d = some (error, net')) :
    net.notifySocket.2 ≠ 0 ∧ net' = { net with inbox := net.inbox + 2 } ∨
      net.notifySocket.2 = 0 ∧ net' = net := by
  by_cases hmade : net.notifySocket.2 = 0
  · simp only [Net.send, Net.owner, hmade, if_true] at h
    exact Or.inr ⟨hmade, (Prod.mk.inj (Option.some.inj h)).2.symm⟩
  · simp only [Net.send, Net.owner, if_neg hmade, hnet.second hmade] at h
    split_ifs at h
    exact Or.inl ⟨hmade, (Prod.mk.inj (Option.some.inj h)).2.symm⟩

/-- Each step of the I/O thread is one of its turn, and it goes on. -/
theorem Turn.callbackStep {d : Outcome} (hw : Turn cmd joined harm w)
    (hstep : callbackStep netKernel w d = some w') :
    Turn cmd joined harm w' ∧ w.stage ≤ w'.stage ∧ w'.os.inReadfds = w.os.inReadfds := by
  cases hplace : w.iocpThread with
  | none => exact absurd hplace hw.thread
  | some place =>
    obtain ⟨hrace, hthread, hstart, hdone, hjoining, hstored, hcommand, hstage, howns, hharm, hinbox,
      hready, hreceived⟩ := hw
    cases place with
    | waiting =>
      simp only [Thread.callbackStep, hplace] at hstep
      split_ifs at hstep with hset
      obtain rfl := Option.some.inj hstep
      refine ⟨by constructor <;> simp_all [World.stage], ?_, rfl⟩
      simp [World.stage, hplace, (hstart.mp hset).2]
    | beginning =>
      simp only [Thread.callbackStep, hplace, Option.some.injEq] at hstep
      obtain rfl := hstep
      refine ⟨by constructor <;> simp_all [World.stage], ?_, rfl⟩
      simp [World.stage, hplace]
    | switching =>
      have hcmd : w.cells.cmd = cmd := hstored (by simp [World.stage, hplace])
      simp only [Thread.callbackStep, hplace, hcmd] at hstep
      rcases hcommand with rfl | rfl
      · obtain rfl := Option.some.inj hstep
        refine ⟨by constructor <;> simp_all [World.stage], ?_, rfl⟩
        simp [World.stage, hplace]
      · obtain ⟨⟨error, net⟩, hact, hw'⟩ := Option.map_eq_some_iff.mp hstep
        obtain rfl := quietCall_spec hact
        cases error with
        | some e =>
          simp only [Option.isSome_some, if_true] at hw'
          obtain rfl := hw'
          refine ⟨by constructor <;> simp_all [World.stage, World.finish, World.fail], ?_, rfl⟩
          simp [World.stage, World.finish, hplace]
        | none =>
          simp only [Option.isSome_none, Bool.false_eq_true, if_false] at hw'
          obtain rfl := hw'
          refine ⟨by constructor <;> simp_all [World.stage], ?_, rfl⟩
          simp [World.stage, hplace]
    | getting =>
      simp only [Thread.callbackStep, hplace] at hstep
      obtain ⟨⟨⟨error, packet⟩, net⟩, hact, rfl⟩ := Option.map_eq_some_iff.mp hstep
      obtain ⟨queue, rfl⟩ := getQueued_spec hact
      have howns' : ({ w.os with queue := queue } : Net).Owns := ⟨howns.first, howns.second, howns.both⟩
      have hharm' : ({ w.os with queue := queue } : Net).harm = harm := hharm
      refine ⟨by constructor <;> simp_all [World.stage, World.fail], ?_, rfl⟩
      simp [World.stage, World.fail, hplace]
    | notifying error =>
      simp only [Thread.callbackStep, hplace] at hstep
      split_ifs at hstep with hselect
      · obtain ⟨⟨error', net⟩, hact, rfl⟩ := Option.map_eq_some_iff.mp hstep
        rcases send_spec (d := d) howns hact with ⟨hmade, rfl⟩ | ⟨hmade, rfl⟩
        · have howns' : ({ w.os with inbox := w.os.inbox + 2 } : Net).Owns :=
            ⟨howns.first, howns.second, howns.both⟩
          have hharm' : ({ w.os with inbox := w.os.inbox + 2 } : Net).harm = harm := hharm
          refine ⟨by constructor <;> simp_all [World.stage, World.finish, World.fail], ?_, rfl⟩
          simp [World.stage, World.finish, hplace]
        · refine ⟨by constructor <;> simp_all [World.stage, World.finish, World.fail], ?_, rfl⟩
          simp [World.stage, World.finish, hplace]
      · obtain rfl := Option.some.inj hstep
        refine ⟨by constructor <;> simp_all [World.stage, World.finish], ?_, rfl⟩
        simp [World.stage, World.finish, hplace]
    | checking =>
      simp only [Thread.callbackStep, hplace, Option.some.injEq] at hstep
      obtain rfl := hstep
      refine ⟨by constructor <;> simp_all [World.stage], ?_, rfl⟩
      simp [World.stage, hplace]
    | idling =>
      simp only [Thread.callbackStep, hplace, Option.some.injEq] at hstep
      obtain rfl := hstep
      refine ⟨by constructor <;> simp_all [World.stage], ?_, rfl⟩
      simp [World.stage, hplace]
    | signalling =>
      simp only [Thread.callbackStep, hplace, Option.some.injEq] at hstep
      obtain rfl := hstep
      refine ⟨by constructor <;> simp_all [World.stage], ?_, rfl⟩
      simp [World.stage, hplace]

/-- A command goes on by itself, and does no harm. -/
theorem Turn.kept :
    Kept (World.move netKernel) (Unharmed harm) fun w => Turn cmd joined harm w where
  move w m w' hw hmove := by
    cases m with
    | callback d => exact (hw.callbackStep hmove).1
    | os n =>
      obtain ⟨net, hnet, rfl⟩ := Option.map_eq_some_iff.mp hmove
      exact hw.move hnet
  safe w hw := ⟨hw.healthy, congrArg _ rfl |>.trans hw.harm⟩

/-- Between two rounds of a poll with curl. What waits at the notify socket is not waited for. -/
structure Rested (harm : ℕ × ℕ) (place : Option Place) (w : World Net ℕ) : Prop where
  idle : Idle place w
  joining : w.joining = false
  owns : w.os.Owns
  harm : w.os.harm = harm
  inbox : w.os.inReadfds = true → w.os.inbox = 0

/-- Between two commands all is well. -/
theorem Idle.healthy {place : Option Place} (hw : Idle place w) (hjoining : w.joining = false) :
    Healthy w where
  race := hw.race
  goes hwaiting := by simp [hw.waiting] at hwaiting
  live hj := by simp [hjoining] at hj

variable {place : Option Place}

/-- The threads do not care about the sockets between two commands. -/
theorem Idle.move {net : Net} (hw : Idle place w) :
    Idle place { w with os := net } :=
  ⟨hw.start, hw.done, hw.thread, hw.free, hw.waiting, hw.race⟩

/-- The same, with a fact about the global variables. -/
def RestedWith (harm : ℕ × ℕ) (place : Option Place) (φ : Cells ℕ → Prop) (w : World Net ℕ) : Prop :=
  Rested harm place w ∧ φ w.cells

/-- Between two rounds of a poll nothing that happens does harm. -/
theorem RestedWith.kept (φ : Cells ℕ → Prop) :
    Kept (World.move netKernel) (Unharmed harm) (RestedWith harm place φ) where
  move w m w' hw hmove := by
    cases m with
    | callback d =>
      rw [World.move, hw.1.idle.callbackStep] at hmove
      cases hmove
    | os n =>
      obtain ⟨net, hnet, rfl⟩ := Option.map_eq_some_iff.mp hmove
      obtain ⟨hharm, hset, hinbox, -⟩ := Net.move_spec hnet
      refine ⟨⟨hw.1.idle.move, hw.1.joining, hw.1.owns.move hnet, hharm.trans hw.1.harm,
        fun hin => ?_⟩, hw.2⟩
      rw [hinbox]
      exact hw.1.inbox (hset.symm.trans hin)
  safe w hw := ⟨hw.1.idle.healthy hw.1.joining, hw.1.harm⟩

/-- The main thread uses global variables. -/
theorem Rested.access {ρ : Type} {f : Cells ℕ → ρ × Cells ℕ} {c : Choice Outcome} {r : ρ}
    (hw : Rested harm place w) (hact : access f w c = some (r, w')) :
    Rested harm place w' ∧ r = (f w.cells).1 ∧ w'.cells = (f w.cells).2 := by
  obtain ⟨rfl, rfl⟩ := Prod.mk.inj (Option.some.inj hact)
  have hrace : (w.race || w.busy) = false := by simp [hw.idle.race, hw.idle.busy]
  exact ⟨⟨⟨hw.idle.start, hw.idle.done, hw.idle.thread, hw.idle.free, hw.idle.waiting, hrace⟩,
    hw.joining, hw.owns, hw.harm, hw.inbox⟩, rfl, rfl⟩

/-- The event is set. -/
theorem Rested.setStart {c : Choice Outcome} (hw : Rested harm (some .waiting) w)
    (hcmd : w.cells.cmd = cmd) (hcommand : cmd = .init ∨ cmd = .getstatus)
    (hact : setStart w c = some ((), w')) : Turn cmd false harm w' := by
  obtain ⟨-, rfl⟩ := Prod.mk.inj (Option.some.inj hact)
  have hstage : ({ w with start := true } : World Net ℕ).stage = 0 := by
    simp [World.stage, hw.idle.thread, hw.idle.done]
  refine ⟨hw.idle.race, by simp [hw.idle.thread], by simp [hw.idle.thread, hw.idle.done], ?_,
    hw.joining, fun _ => hcmd, hcommand, fun _ => by simp [hstage], hw.owns, hw.harm,
    fun hin => Or.inl (hw.inbox hin), nofun, nofun⟩
  intro hdone
  rw [hw.idle.done] at hdone
  cases hdone

/-- The main thread starts to wait. -/
theorem Turn.enterWait {c : Choice Outcome} (hw : Turn cmd joined harm w)
    (hact : enterWait w c = some ((), w')) : Turn cmd joined harm w' := by
  obtain ⟨-, rfl⟩ := Prod.mk.inj (Option.some.inj hact)
  exact ⟨hw.race, hw.thread, hw.start, hw.done, hw.joining, hw.stored, hw.command, hw.stage, hw.owns,
    hw.harm, hw.inbox, hw.ready, hw.received⟩

/-- The I/O thread is done, and the event is reset. -/
theorem Turn.leaveWait {c : Choice Outcome} (hw : Turn cmd joined harm w)
    (hjoined : cmd = .init ∨ joined = true) (hact : leaveWait w c = some ((), w')) :
    Rested harm (some .waiting) w' := by
  unfold Thread.leaveWait at hact
  split_ifs at hact with hdone
  obtain ⟨-, rfl⟩ := Prod.mk.inj (Option.some.inj hact)
  have hplace := hw.done hdone
  have hstart : w.start = false := by
    cases hset : w.start with
    | false => rfl
    | true => simp [(hw.start.mp hset).2] at hdone
  refine ⟨⟨hstart, rfl, hplace, Or.inr rfl, rfl, hw.race⟩, rfl, hw.owns, hw.harm, fun hin => ?_⟩
  rcases hjoined with rfl | rfl
  · rcases hw.inbox hin with hzero | ⟨-, hcmd, -⟩
    · exact hzero
    · cases hcmd
  · exact (hw.received rfl hin).1

/-- The main thread waits for the end of a command. -/
theorem Turn.waitDone (hjoined : cmd = .init ∨ joined = true) :
    Ensures (World.move netKernel) (Unharmed harm) (Turn cmd joined harm)
      (waitDone : Call Net Outcome ℕ Unit)
      (fun r w => r = .ok () ∧ Rested harm (some .waiting) w) := by
  refine .step Turn.kept (fun _ => Turn cmd joined harm)
    (fun w c r w' hw hact => hw.enterWait hact) fun _ => ?_
  refine .act Turn.kept (fun _ => RestedWith harm (some .waiting) fun _ => True)
    (fun w c r w' hw hact => ⟨hw.leaveWait hjoined hact, trivial⟩) fun _ => ?_
  exact .ret (RestedWith.kept _) fun w hw => ⟨rfl, hw.1⟩

/-- After `select()`, with what it says about the notify socket. -/
def Selected (harm : ℕ × ℕ) (notified : Bool) (w : World Net ℕ) : Prop :=
  Turn .getstatus false harm w ∧ w.os.inReadfds = notified

/-- The command goes on while the main thread looks at its sockets. -/
theorem Selected.kept (notified : Bool) :
    Kept (World.move netKernel) (Unharmed harm) (Selected harm notified) where
  move w m w' hw hmove := by
    obtain ⟨hturn, hset⟩ := hw
    refine ⟨Turn.kept.move w m w' hturn hmove, ?_⟩
    cases m with
    | callback d => exact (hturn.callbackStep hmove).2.2.trans hset
    | os n =>
      obtain ⟨net, hnet, rfl⟩ := Option.map_eq_some_iff.mp hmove
      exact (Net.move_spec hnet).2.1.trans hset
  safe w hw := Turn.kept.safe w hw.1

/-- `select()` takes the notify socket out of the set, unless it is ready or the call fails. -/
theorem Turn.select {c : Choice Outcome} {notified : Bool} (hw : Turn .getstatus false harm w)
    (hact : mainAction selectCall w c = some (notified, w')) : Selected harm notified w' := by
  cases c with
  | ok | fail => cases hact
  | os d =>
    obtain ⟨⟨notified', net⟩, hselect, heq⟩ := Option.map_eq_some_iff.mp hact
    obtain ⟨rfl, rfl⟩ := Prod.mk.inj heq
    cases d with
    | sockets => cases hselect
    | fail =>
      obtain ⟨rfl, rfl⟩ := Prod.mk.inj (Option.some.inj hselect)
      exact ⟨hw, rfl⟩
    | ok =>
      obtain ⟨rfl, rfl⟩ := Prod.mk.inj (Option.some.inj hselect)
      refine ⟨⟨hw.race, hw.thread, hw.start, hw.done, hw.joining, hw.stored, hw.command, hw.stage,
        ⟨hw.owns.first, hw.owns.second, hw.owns.both⟩, hw.harm, fun hin => ?_, nofun, nofun⟩, rfl⟩
      exact hw.inbox (Bool.and_eq_true_iff.mp hin).1

/-- `recv()` comes back with bytes of the I/O thread, unless there is no pair of sockets. -/
theorem Net.Owns.recv {net net' : Net} (hnet : net.Owns) (h : net.recv = some net') :
    net.notifySocket.2 ≠ 0 ∧ net.inbox ≠ 0 ∧ net' = { net with inbox := net.inbox - 10 } ∨
      net.notifySocket.2 = 0 ∧ net' = net := by
  by_cases hmade : net.notifySocket.2 = 0
  · simp only [Net.recv, Net.owner, hmade, if_true, reduceCtorEq, and_false, if_false] at h
    exact Or.inr ⟨hmade, (Option.some.inj h).symm⟩
  · have hpair : net.owner net.notifySocket.1 = some .package ∧
        net.owner net.notifySocket.2 = some .package := by
      simp [Net.owner, hmade, hnet.both hmade, hnet.first (hnet.both hmade), hnet.second hmade]
    simp only [Net.recv, if_pos hpair] at h
    split_ifs at h with hempty
    exact Or.inl ⟨hmade, hempty, (Option.some.inj h).symm⟩

/-- Then the I/O thread is past its wait for a packet, or there is a packet for it. -/
theorem Selected.wake {c : Choice Outcome} {notified : Bool} (hw : Selected harm notified w)
    (hact : wake notified w c = some ((), w')) : Turn .getstatus true harm w' := by
  obtain ⟨hturn, hset⟩ := hw
  obtain ⟨net, hnet, heq⟩ := Option.map_eq_some_iff.mp hact
  obtain ⟨-, rfl⟩ := Prod.mk.inj heq
  cases notified with
  | true =>
    rcases hturn.owns.recv hnet with ⟨hmade, hne, rfl⟩ | ⟨hmade, rfl⟩
    · -- the message is there, so the I/O thread is past its wait for a packet
      obtain ⟨hstage, hempty⟩ : 4 < w.stage ∧ w.os.inbox - 10 = 0 := by
        rcases hturn.inbox hset with hzero | ⟨-, -, hstage, hle⟩
        · exact absurd hzero hne
        · exact ⟨hstage, by omega⟩
      refine ⟨hturn.race, hturn.thread, hturn.start, hturn.done, rfl, hturn.stored, hturn.command,
        hturn.stage, ⟨hturn.owns.first, hturn.owns.second, hturn.owns.both⟩, hturn.harm,
        fun _ => Or.inl hempty, fun _ _ hle => ?_, fun _ _ => ⟨hempty, fun _ => hstage⟩⟩
      exact absurd hstage (not_lt.mpr (Nat.le_succ_of_le hle))
    · have hempty : w.os.inbox = 0 := by
        rcases hturn.inbox hset with hzero | ⟨hnot, -⟩
        · exact hzero
        · exact absurd hmade hnot
      exact ⟨hturn.race, hturn.thread, hturn.start, hturn.done, rfl, hturn.stored, hturn.command,
        hturn.stage, hturn.owns, hturn.harm, fun _ => Or.inl hempty,
        fun _ hnot => absurd hmade hnot, fun _ _ => ⟨hempty, fun hnot => absurd hmade hnot⟩⟩
  | false =>
    obtain rfl := Option.some.inj hnet
    refine ⟨hturn.race, hturn.thread, hturn.start, hturn.done, rfl, hturn.stored, hturn.command,
      hturn.stage, ⟨hturn.owns.first, hturn.owns.second, hturn.owns.both⟩, hturn.harm, ?_, ?_, ?_⟩
    · exact fun hin => absurd (hset.symm.trans hin) Bool.false_ne_true
    · exact fun _ _ _ => by simp [Net.post]
    · exact fun _ hin => absurd (hset.symm.trans hin) Bool.false_ne_true

/-- The main thread stores global variables. -/
theorem store_rested {β : Type} {φ ψ : Cells ℕ → Prop} {f : Cells ℕ → Cells ℕ}
    {g : Unit → Call Net Outcome ℕ β} {Q : Except String β → World Net ℕ → Prop}
    (hf : ∀ cells, φ cells → ψ (f cells))
    (hg : Ensures (World.move netKernel) (Unharmed harm) (RestedWith harm place ψ) (g ()) Q) :
    Ensures (World.move netKernel) (Unharmed harm) (RestedWith harm place φ)
      (Prog.lift (store f) >>= g) Q := by
  refine .step (RestedWith.kept φ) (fun _ => RestedWith harm place ψ) (fun w c r w' hw hact => ?_)
    fun _ => hg
  obtain ⟨hrested, -, hcells⟩ := hw.1.access hact
  refine ⟨hrested, ?_⟩
  rw [hcells]
  exact hf w.cells hw.2

/-- At rest, with or without an I/O thread. -/
def AtRest (harm : ℕ × ℕ) (w : World Net ℕ) : Prop := ∃ place, Rested harm place w

/-- Between two rounds of a poll nothing that happens does harm, with a thread or without. -/
theorem AtRest.kept : Kept (World.move netKernel) (Unharmed harm) (AtRest harm) where
  move w m w' hw hmove := by
    obtain ⟨place, hplace⟩ := hw
    exact ⟨place, ((RestedWith.kept fun _ => True).move w m w' ⟨hplace, trivial⟩ hmove).1⟩
  safe w hw := by
    obtain ⟨place, hplace⟩ := hw
    exact ⟨hplace.idle.healthy hplace.joining, hplace.harm⟩

/-- What `processx__start_thread()` leaves. -/
def Started (harm : ℕ × ℕ) (r : Except String Unit) (w : World Net ℕ) : Prop :=
  (r = .ok () ∧ RestedWith harm (some .waiting) (fun _ => True) w) ∨
    ∃ e, r = .error e ∧ AtRest harm w

/-- A start that fails leaves no thread. -/
theorem started_throw {φ : Cells ℕ → Prop} (e : String) :
    Ensures (World.move netKernel) (Unharmed harm) (RestedWith harm none φ)
      (.throw e : Call Net Outcome ℕ Unit) (Started harm) :=
  .throw (RestedWith.kept φ) fun _ hw => Or.inr ⟨e, rfl, none, hw.1⟩

/-- With new events the thread is started, or the start fails. -/
theorem startWithEvents_rested :
    Ensures (World.move netKernel) (Unharmed harm) (RestedWith harm none fun _ => True)
      (startWithEvents : Call Net Outcome ℕ Unit) (Started harm) := by
  refine store_rested (ψ := fun cells => cells.cmd = .init) (fun _ _ => rfl) ?_
  refine .step (RestedWith.kept _) (fun ok w => if ok then
    RestedWith harm (some .waiting) (fun cells => cells.cmd = .init) w
      else RestedWith harm none (fun _ => True) w) (fun w c ok w' hw hact => ?_) fun ok => ?_
  · obtain ⟨⟨hidle, hjoining, howns, hharm, hinbox⟩, hcmd⟩ := hw
    cases c with
    | ok =>
      obtain ⟨rfl, rfl⟩ := Prod.mk.inj (Option.some.inj hact)
      have hidle' : Idle (some .waiting) { w with iocpThread := some .waiting } :=
        ⟨hidle.start, hidle.done, rfl, Or.inr rfl, hidle.waiting, hidle.race⟩
      exact ⟨⟨hidle', hjoining, howns, hharm, hinbox⟩, hcmd⟩
    | fail =>
      obtain ⟨rfl, rfl⟩ := Prod.mk.inj (Option.some.inj hact)
      exact ⟨⟨hidle, hjoining, howns, hharm, hinbox⟩, trivial⟩
    | os d => cases hact
  · cases ok with
    | false =>
      exact (started_throw (φ := fun _ => True) _).conseq (fun _ hw => hw) fun _ _ hq => hq
    | true =>
      -- the first handshake: the I/O thread has nothing to do
      refine .step (RestedWith.kept fun cells => cells.cmd = .init)
        (fun _ w => Turn .init false harm w)
        (fun w c r w' hw hact => hw.1.setStart hw.2 (Or.inl rfl) hact) fun _ => ?_
      refine (Turn.waitDone (Or.inl rfl)).conseq (fun _ hw => hw) fun r w hw => ?_
      exact Or.inl ⟨hw.1, hw.2, trivial⟩

/-- `processx__start_thread()` leaves a thread that waits, or fails. -/
theorem startThread_rested :
    Ensures (World.move netKernel) (Unharmed harm) (AtRest harm)
      (startThread : Call Net Outcome ℕ Unit) (Started harm) := by
  refine .step AtRest.kept (fun exists_ w => RestedWith harm
    (if exists_ then some .waiting else none) (fun _ => True) w) (fun w c exists_ w' hw hact => ?_)
    fun exists_ => ?_
  · obtain ⟨rfl, rfl⟩ := Prod.mk.inj (Option.some.inj hact)
    obtain ⟨place, hrested⟩ := hw
    rw [hrested.idle.thread]
    rcases hrested.idle.free with rfl | rfl <;> exact ⟨hrested, trivial⟩
  · cases exists_ with
    | true => exact .ret (RestedWith.kept _) fun w hw => Or.inl ⟨rfl, hw⟩
    | false =>
      refine .step (RestedWith.kept _) (fun _ => RestedWith harm none fun _ => True)
        (fun w c ok w' hw hact => ?_) fun ok => ?_
      · obtain ⟨⟨hidle, hjoining, howns, hharm, hinbox⟩, -⟩ := hw
        cases c with
        | ok =>
          obtain ⟨rfl, rfl⟩ := Prod.mk.inj (Option.some.inj hact)
          have hidle' : Idle none { w with start := false, done := false } :=
            ⟨rfl, rfl, hidle.thread, Or.inl rfl, hidle.waiting, hidle.race⟩
          exact ⟨⟨hidle', hjoining, howns, hharm, hinbox⟩, trivial⟩
        | fail =>
          obtain ⟨rfl, rfl⟩ := Prod.mk.inj (Option.some.inj hact)
          exact ⟨⟨hidle, hjoining, howns, hharm, hinbox⟩, trivial⟩
        | os d => cases hact
      · cases ok with
        | false => exact started_throw _
        | true => exact startWithEvents_rested

/-- A round, from rest to rest. -/
theorem threadGetstatusSelect_rested (dwMilliseconds : ℕ) :
    Ensures (World.move netKernel) (Unharmed harm) (AtRest harm)
      (threadGetstatusSelect dwMilliseconds) (fun _ => AtRest harm) := by
  refine .bind startThread_rested (fun _ => ?_) ?_
  · refine .conseq (R := RestedWith harm (some .waiting) fun _ => True) ?_ (fun w hw => ?_)
      fun _ _ hq => hq
    · refine store_rested (ψ := fun cells => cells.cmd = .getstatus) (fun _ _ => rfl) ?_
      refine store_rested (ψ := fun cells => cells.cmd = .getstatus) (fun _ hcmd => hcmd) ?_
      refine store_rested (ψ := fun cells => cells.cmd = .getstatus) (fun _ hcmd => hcmd) ?_
      refine .step (RestedWith.kept _) (fun _ => Turn .getstatus false harm)
        (fun w c r w' hw hact => hw.1.setStart hw.2 (Or.inr rfl) hact) fun _ => ?_
      -- the main thread waits for sockets while the I/O thread does the command
      refine .step Turn.kept (Selected harm) (fun w c r w' hw hact => hw.select hact)
        fun notified => ?_
      refine .step (Selected.kept notified) (fun _ => Turn .getstatus true harm)
        (fun w c r w' hw hact => hw.wake hact) fun _ => ?_
      have hwait := (@Turn.waitDone .getstatus _ harm (Or.inr rfl)).conseq
        (fun _ hw => hw) fun r w hw => (⟨some .waiting, hw.2⟩ : AtRest harm w)
      refine .bind hwait (fun _ => ?_) fun _ _ hw => hw
      refine .act AtRest.kept (fun _ => AtRest harm) (fun w c r w' hw hact => ?_)
        fun _ => .ret AtRest.kept fun _ hw => hw
      obtain ⟨place, hrested⟩ := hw
      exact ⟨place, (hrested.access hact).1⟩
    · rcases hw with ⟨-, hw⟩ | ⟨e, heq, -⟩
      · exact hw
      · cases heq
  · rintro e w (⟨heq, -⟩ | ⟨e', -, hw⟩)
    · cases heq
    · exact hw

end Processx.Win.Thread
