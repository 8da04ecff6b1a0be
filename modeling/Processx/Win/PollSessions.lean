import Processx.Win.WakeUps

/-!
# Sessions of polls and reads

Polls and reads, one after another. However they are mixed, no wake-up is lost and the two threads use
their global variables in turn. The sockets of others are safe as long as nothing but polls of curl and
starts of reads comes after a poll of curl: the numbers of its notify sockets stay where they are when
it has closed them.
-/

namespace Processx.Win.Thread

open Interruptible

section Actions

variable {Os D N P α : Type}

/-- The action leaves the global variables alone, and does not make the main thread wait for the I/O
thread alone. -/
def Spares {ρ : Type} (a : Act Os D P ρ) : Prop := ∀ w c r w', a w c = some (r, w') →
  w'.cells = w.cells ∧ (w.joining = false → w'.joining = false)

/-- Setting the first event leaves the global variables alone. -/
theorem setStart_spares : Spares (setStart : Act Os D P Unit) := by
  intro w c r w' hact
  obtain ⟨-, rfl⟩ := Prod.mk.inj (Option.some.inj hact)
  exact ⟨rfl, id⟩

/-- The main thread starts to wait. -/
theorem enterWait_spares : Spares (enterWait : Act Os D P Unit) := by
  intro w c r w' hact
  obtain ⟨-, rfl⟩ := Prod.mk.inj (Option.some.inj hact)
  exact ⟨rfl, id⟩

/-- When the main thread stops waiting, it waits for nothing. -/
theorem leaveWait_spares : Spares (leaveWait : Act Os D P Unit) := by
  intro w c r w' hact
  unfold leaveWait at hact
  split_ifs at hact
  obtain ⟨-, rfl⟩ := Prod.mk.inj (Option.some.inj hact)
  exact ⟨rfl, fun _ => rfl⟩

/-- So does a look for the I/O thread. -/
theorem hasThread_spares : Spares (hasThread : Act Os D P Bool) := by
  intro w c r w' hact
  obtain ⟨-, rfl⟩ := Prod.mk.inj (Option.some.inj hact)
  exact ⟨rfl, id⟩

/-- So do new events. -/
theorem createEvents_spares : Spares (createEvents : Act Os D P Bool) := by
  intro w c r w' hact
  cases c with
  | ok | fail =>
    obtain ⟨-, rfl⟩ := Prod.mk.inj (Option.some.inj hact)
    exact ⟨rfl, id⟩
  | os d => cases hact

/-- So does a new thread. -/
theorem createThread_spares : Spares (createThread : Act Os D P Bool) := by
  intro w c r w' hact
  cases c with
  | ok | fail =>
    obtain ⟨-, rfl⟩ := Prod.mk.inj (Option.some.inj hact)
    exact ⟨rfl, id⟩
  | os d => cases hact

/-- So does what the main thread does on its own. -/
theorem mainAction_spares {ρ : Type} (a : SysCall Os D ρ) :
    Spares (mainAction a : Act Os D P ρ) := by
  intro w c r w' hact
  cases c with
  | ok | fail => cases hact
  | os d =>
    obtain ⟨⟨r', os⟩, -, heq⟩ := Option.map_eq_some_iff.mp hact
    obtain ⟨-, rfl⟩ := Prod.mk.inj heq
    exact ⟨rfl, id⟩

/-- What such actions have, and those that do not clear `processx__select`. -/
structure Common (φ : ∀ {ρ : Type}, Act Os D P ρ → Prop) : Prop where
  spares : ∀ {ρ : Type} (a : Act Os D P ρ), Spares a → φ a
  access : ∀ {ρ : Type} (f : Cells P → ρ × Cells P),
    (∀ cells, cells.select = true → (f cells).2.select = true) → φ (access f)

variable {φ : ∀ {ρ : Type}, Act Os D P ρ → Prop}

/-- A wait for the I/O thread is made of such actions. -/
theorem Common.waitDone (h : Common φ) : (waitDone : Call Os D P Unit).Each φ :=
  .step (h.spares _ enterWait_spares) fun _ => .lift (h.spares _ leaveWait_spares)

/-- A round of the I/O thread is made of such actions. -/
theorem Common.signalAndWait (h : Common φ) : (signalAndWait : Call Os D P Unit).Each φ :=
  .step (h.spares _ setStart_spares) fun _ => h.waitDone

/-- The start of the I/O thread is made of such actions. -/
theorem Common.startThread (h : Common φ) : (startThread : Call Os D P Unit).Each φ := by
  refine .step (h.spares _ hasThread_spares) fun exists_ => ?_
  split_ifs
  · trivial
  · refine .step (h.spares _ createEvents_spares) fun ok => ?_
    split_ifs
    · refine .step (h.access _ fun _ => id) fun _ => ?_
      refine .step (h.spares _ createThread_spares) fun ok => ?_
      split_ifs
      · exact h.signalAndWait
      · trivial
    · trivial

/-- So is each of the three calls. -/
theorem Common.threadCall (h : Common φ) (request : Request) :
    (threadCall request : Call Os D P Bool).Each φ := by
  have hend : Prog.Each φ
      (Thread.signalAndWait >>= fun _ => Prog.lift readSuccess : Call Os D P Bool) :=
    h.signalAndWait.bind fun _ => .lift (h.access _ fun _ => id)
  cases request <;> refine h.startThread.bind fun _ => ?_
  all_goals
    -- the command and its arguments are stored
    refine .step (h.access _ fun _ => id) fun _ => ?_
    exact .step (h.access _ fun _ => id) fun _ => hend

/-- So is the look for the error code. -/
theorem Common.errorOf (h : Common φ) (success : Bool) :
    (errorOf success : Call Os D P ErrorCode).Each φ := by
  unfold Thread.errorOf
  split_ifs
  · trivial
  · exact .lift (h.access _ fun _ => id)

/-- The action does not make the main thread wait for the I/O thread alone. -/
def KeepsJoining {ρ : Type} (a : Act Os D P ρ) : Prop :=
  ∀ w c r w', w.joining = false → a w c = some (r, w') → w'.joining = false

/-- Use of the global variables is no wait. -/
theorem access_keepsJoining {ρ : Type} (f : Cells P → ρ × Cells P) :
    KeepsJoining (access f : Act Os D P ρ) := by
  intro w c r w' hw hact
  obtain ⟨-, rfl⟩ := Prod.mk.inj (Option.some.inj hact)
  exact hw

/-- All such actions keep the main thread from waiting for the I/O thread alone. -/
theorem common_keepsJoining : Common fun {ρ} (a : Act Os D P ρ) => KeepsJoining a where
  spares _ ha w c r w' hw hact := (ha w c r w' hact).2 hw
  access f _ := access_keepsJoining f

/-- So does a program with calls: only `select()` is followed by such a wait. -/
theorem client_keepsJoining (client : Client Os D P α) :
    client.threaded.Each fun a => KeepsJoining a := by
  induction client with
  | ret | throw | spin => trivial
  | main a next ih =>
    exact .step (common_keepsJoining.spares _ (mainAction_spares a)) ih
  | setSelect b next ih => exact .step (access_keepsJoining _) fun _ => ih
  | clearOverlapped next ih => exact .step (access_keepsJoining _) fun _ => ih
  | call request next ih =>
    exact (common_keepsJoining.threadCall request).bind fun success =>
      (common_keepsJoining.errorOf success).bind fun error =>
        .step (access_keepsJoining _) fun _ => ih _

/-- The I/O thread changes neither what the main thread waits for nor `processx__select`. -/
theorem move_spares (k : Kernel Os D N P) {w w' : World Os P} {m : Move D N}
    (h : World.move k w m = some w') :
    w'.joining = w.joining ∧ w'.cells.select = w.cells.select := by
  cases m with
  | os n =>
    obtain ⟨os, -, rfl⟩ := Option.map_eq_some_iff.mp h
    exact ⟨rfl, rfl⟩
  | callback d =>
    cases hplace : w.iocpThread with
    | none => simp [World.move, callbackStep, hplace] at h
    | some place =>
      cases place <;> simp only [World.move, callbackStep, hplace] at h
      case waiting =>
        split_ifs at h
        rw [← Option.some.inj h]
        exact ⟨rfl, rfl⟩
      case switching =>
        split at h
        · rw [← Option.some.inj h]
          exact ⟨rfl, rfl⟩
        · rw [← Option.some.inj h]
          exact ⟨rfl, rfl⟩
        · obtain ⟨_, -, rfl⟩ := Option.map_eq_some_iff.mp h
          exact ⟨rfl, rfl⟩
        · obtain ⟨⟨error, os⟩, -, rfl⟩ := Option.map_eq_some_iff.mp h
          dsimp only
          split_ifs <;> exact ⟨rfl, rfl⟩
        · obtain ⟨_, -, rfl⟩ := Option.map_eq_some_iff.mp h
          exact ⟨rfl, rfl⟩
      case getting =>
        obtain ⟨_, -, rfl⟩ := Option.map_eq_some_iff.mp h
        exact ⟨rfl, rfl⟩
      case notifying error =>
        split_ifs at h
        · obtain ⟨_, -, rfl⟩ := Option.map_eq_some_iff.mp h
          exact ⟨rfl, rfl⟩
        · rw [← Option.some.inj h]
          exact ⟨rfl, rfl⟩
      case checking =>
        rw [← Option.some.inj h]
        dsimp only
        split_ifs <;> exact ⟨rfl, rfl⟩
      all_goals
        rw [← Option.some.inj h]
        exact ⟨rfl, rfl⟩

end Actions

/-- Between two polls or reads. -/
structure Ready (w : World Net ℕ) : Prop where
  quiet : Quiet w
  joining : w.joining = false

/-- Between two polls or reads all is well. -/
theorem Ready.healthy {w : World Net ℕ} (hw : Ready w) : Healthy w := by
  obtain ⟨place, hidle⟩ := hw.quiet
  exact hidle.healthy hw.joining

/-- Programs with calls, at any moment. -/
theorem client_ready {α : Type} (client : Client Net Outcome ℕ α) :
    Ensures (World.move netKernel) Healthy Ready client.threaded (fun _ => Ready) := by
  have hjoining : Kept (World.move netKernel) (fun w => w.joining = false)
      (fun w => w.joining = false) :=
    ⟨fun w m w' hw hmove => (move_spares netKernel hmove).1.trans hw, fun _ hw => hw⟩
  refine (((client_safe netKernel client).and (.each hjoining (client_keepsJoining client))).weaken
    fun w hw => ⟨hw.1.1, hw.1.2, fun hj => ?_⟩).conseq (fun w hw => ⟨hw.quiet, hw.joining⟩)
    fun _ w hw => ⟨hw.1, hw.2⟩
  rw [hw.2] at hj
  cases hj

/-- The loop of a poll without curl. -/
def plainLoop (timeout : ℤ) : ℕ → ℤ → Client Net Outcome ℕ Bool
  | 0, _ => .spin
  | rounds + 1, timeleft =>
    let again : Client Net Outcome ℕ Bool := .main perhaps fun interrupted =>
      if interrupted then .throw "interrupt"
      else plainLoop timeout rounds (timeleft - pollInterval)
    if timeout < 0 ∨ timeleft ≥ 0 then
      .call (.getstatus
        (if timeout < 0 ∨ timeleft > pollInterval then pollInterval else timeleft).toNat)
        fun answer => match answer.overlapped with
          | some _ => .main perhaps fun fromPacket => if fromPacket then .ret true else again
          | none =>
            if answer.error ≠ waitTimeout ∧ answer.error ≠ 0 then .throw "Cannot poll" else again
    else .ret false

/-- Without curl, the loop is a program with calls. -/
theorem pollLoop_plain (timeout : ℤ) (rounds : ℕ) (timeleft : ℤ) :
    pollLoop false timeout rounds timeleft = (plainLoop timeout rounds timeleft).threaded := by
  induction rounds generalizing timeleft with
  | zero => rfl
  | succ rounds ih =>
    have hagain : (Prog.lift (mainAction perhaps) >>= fun interrupted =>
        if interrupted then .throw "interrupt"
        else pollLoop false timeout rounds (timeleft - pollInterval) : Call Net Outcome ℕ Bool) =
        Client.threaded (.main perhaps fun interrupted => if interrupted then .throw "interrupt"
          else plainLoop timeout rounds (timeleft - pollInterval)) := by
      refine bind_congr fun interrupted => ?_
      cases interrupted with
      | true => rfl
      | false => exact ih _
    by_cases hwhile : timeout < 0 ∨ timeleft ≥ 0
    · simp only [pollLoop, plainLoop, if_pos hwhile]
      refine bind_congr (m := Call Net Outcome ℕ) fun success => bind_congr fun error =>
        bind_congr fun overlapped => ?_
      cases overlapped with
      | some con =>
        refine bind_congr (m := Call Net Outcome ℕ) (x := Prog.lift (mainAction perhaps))
          fun fromPacket => ?_
        cases fromPacket with
        | true => rfl
        | false => exact hagain
      | none =>
        by_cases herror : error ≠ waitTimeout ∧ error ≠ 0
        · simp only [packetData, if_pos herror]
          rfl
        · simp only [packetData, if_neg herror]
          exact hagain
    · simp only [pollLoop, plainLoop, if_neg hwhile]
      rfl

variable {harm : ℕ × ℕ}

/-- Between two polls or reads, with what has been lost so far. -/
def ReadyWith (harm : ℕ × ℕ) (w : World Net ℕ) : Prop := Ready w ∧ w.os.harm = harm

/-- Between two rounds of a poll with curl the threads are ready for anything. -/
theorem AtRest.ready {w : World Net ℕ} (hw : AtRest harm w) : ReadyWith harm w := by
  obtain ⟨place, hrested⟩ := hw
  exact ⟨⟨⟨place, hrested.idle⟩, hrested.joining⟩, hrested.harm⟩

/-- Between two polls or reads nothing happens but moves of the system. -/
theorem ready_move {w w' : World Net ℕ} {m : Move Outcome Happening} (hw : Ready w)
    (hmove : World.move netKernel w m = some w') :
    Ready w' ∧ ∃ n, w.os.move n = some w'.os ∧ w' = { w with os := w'.os } := by
  obtain ⟨⟨place, hidle⟩, hjoining⟩ := hw
  cases m with
  | callback d =>
    rw [World.move, hidle.callbackStep] at hmove
    cases hmove
  | os n =>
    obtain ⟨net, hnet, rfl⟩ := Option.map_eq_some_iff.mp hmove
    exact ⟨⟨⟨place, hidle.move⟩, hjoining⟩, n, hnet, rfl⟩

/-- What happens between two polls or reads does no harm. -/
theorem ReadyWith.kept : Kept (World.move netKernel) (Unharmed harm) (ReadyWith harm) where
  move w m w' hw hmove := by
    obtain ⟨hready, n, hnet, -⟩ := ready_move hw.1 hmove
    exact ⟨hready, (Net.move_spec hnet).1.trans hw.2⟩
  safe w hw := ⟨hw.1.healthy, hw.2⟩

/-- The main thread uses global variables between two calls. -/
theorem Ready.access {ρ : Type} {f : Cells ℕ → ρ × Cells ℕ} {w w' : World Net ℕ}
    {c : Choice Outcome} {r : ρ} (hw : Ready w) (hact : access f w c = some (r, w')) :
    Ready w' ∧ w'.os = w.os ∧ w'.cells = (f w.cells).2 := by
  obtain ⟨⟨place, hidle⟩, hjoining⟩ := hw
  obtain ⟨rfl, rfl⟩ := Prod.mk.inj (Option.some.inj hact)
  have hrace : (w.race || w.busy) = false := by simp [hidle.race, hidle.busy]
  exact ⟨⟨⟨place, hidle.start, hidle.done, hidle.thread, hidle.free, hidle.waiting, hrace⟩,
    hjoining⟩, rfl, rfl⟩

/-- The main thread does something of its own between two calls. -/
theorem Ready.main {ρ : Type} {a : SysCall Net Outcome ρ} {w w' : World Net ℕ} {c : Choice Outcome}
    {r : ρ} (hw : Ready w) (hact : mainAction a w c = some (r, w')) :
    Ready w' ∧ w'.cells = w.cells ∧ ∃ d, a w.os d = some (r, w'.os) := by
  obtain ⟨⟨place, hidle⟩, hjoining⟩ := hw
  cases c with
  | ok | fail => cases hact
  | os d =>
    obtain ⟨⟨r', net⟩, ha, heq⟩ := Option.map_eq_some_iff.mp hact
    obtain ⟨rfl, rfl⟩ := Prod.mk.inj heq
    exact ⟨⟨⟨place, hidle.move⟩, hjoining⟩, rfl, d, ha⟩

/-- Something that may be so changes nothing. -/
theorem perhaps_spec {net net' : Net} {d : Outcome} {b : Bool}
    (h : perhaps net d = some (b, net')) : net' = net := by
  cases d with
  | ok | fail => exact (Prod.mk.inj (Option.some.inj h)).2.symm
  | sockets => cases h

/-- The rule for global variables between two rounds. -/
theorem access_rested {ρ β : Type} {f : Cells ℕ → ρ × Cells ℕ} {g : ρ → Call Net Outcome ℕ β}
    {Q : Except String β → World Net ℕ → Prop}
    (hg : ∀ r, Ensures (World.move netKernel) (Unharmed harm) (AtRest harm) (g r) Q) :
    Ensures (World.move netKernel) (Unharmed harm) (AtRest harm) (Prog.lift (access f) >>= g) Q := by
  refine .step AtRest.kept (fun _ => AtRest harm) (fun w c r w' hw hact => ?_) hg
  obtain ⟨place, hrested⟩ := hw
  exact ⟨place, (hrested.access hact).1⟩

/-- The rule for something that may be so, between two rounds. -/
theorem perhaps_rested {β : Type} {g : Bool → Call Net Outcome ℕ β}
    {Q : Except String β → World Net ℕ → Prop}
    (hg : ∀ b, Ensures (World.move netKernel) (Unharmed harm) (AtRest harm) (g b) Q) :
    Ensures (World.move netKernel) (Unharmed harm) (AtRest harm)
      (Prog.lift (mainAction perhaps) >>= g) Q := by
  refine .step AtRest.kept (fun _ => AtRest harm) (fun w c r w' hw hact => ?_) hg
  cases c with
  | ok | fail => cases hact
  | os d =>
    obtain ⟨⟨r', net⟩, ha, heq⟩ := Option.map_eq_some_iff.mp hact
    obtain ⟨-, rfl⟩ := Prod.mk.inj heq
    obtain rfl := perhaps_spec ha
    exact hw

/-- The look for the error code of a round. -/
theorem errorOf_rested (success : Bool) :
    Ensures (World.move netKernel) (Unharmed harm) (AtRest harm)
      (errorOf success : Call Net Outcome ℕ ErrorCode) (fun _ => AtRest harm) := by
  cases success with
  | true => exact .ret AtRest.kept fun _ hw => hw
  | false => exact access_rested fun _ => .ret AtRest.kept fun _ hw => hw

/-- The look for a packet behind a round. -/
theorem packetData_rested (error : ErrorCode) (overlapped : Option ℕ) :
    Ensures (World.move netKernel) (Unharmed harm) (AtRest harm) (packetData error overlapped)
      (fun _ => AtRest harm) := by
  cases overlapped with
  | some con => exact perhaps_rested fun _ => .ret AtRest.kept fun _ hw => hw
  | none =>
    unfold packetData
    split_ifs
    · exact .throw AtRest.kept fun _ hw => hw
    · exact .ret AtRest.kept fun _ hw => hw

/-- The loop of a poll with curl, whose rounds are at rest in between. -/
theorem pollLoop_rested (timeout : ℤ) (rounds : ℕ) (timeleft : ℤ) :
    Ensures (World.move netKernel) (Unharmed harm) (AtRest harm)
      (pollLoop true timeout rounds timeleft) (fun _ => AtRest harm) := by
  induction rounds generalizing timeleft with
  | zero => exact .spin AtRest.kept
  | succ rounds ih =>
    rw [pollLoop]
    by_cases hwhile : timeout < 0 ∨ timeleft ≥ 0
    · rw [if_pos hwhile]
      refine .bind (threadGetstatusSelect_rested _) (fun success => ?_) fun _ _ hw => hw
      refine .bind (errorOf_rested success) (fun error => ?_) fun _ _ hw => hw
      refine access_rested fun overlapped => perhaps_rested fun fromCurl => ?_
      refine .bind (packetData_rested error overlapped) (fun fromPacket => ?_) fun _ _ hw => hw
      split_ifs
      · exact .ret AtRest.kept fun _ hw => hw
      · refine perhaps_rested fun interrupted => ?_
        split_ifs
        · exact .throw AtRest.kept fun _ hw => hw
        · exact ih _
    · rw [if_neg hwhile]
      exact .ret AtRest.kept fun _ hw => hw

/-- A new pair of notify sockets. -/
theorem socketPair_spec {net net' : Net} {d : Outcome} {r : Unit}
    (h : socketPair net d = some (r, net')) :
    net'.Owns ∧ net'.harm = net.harm ∧ net'.inbox = 0 := by
  cases d with
  | ok | fail => cases h
  | sockets first second =>
    simp only [socketPair] at h
    split_ifs at h with hfree
    obtain ⟨-, rfl⟩ := Prod.mk.inj (Option.some.inj h)
    exact ⟨⟨by simp [Net.setSocket], by simp [Net.setSocket], fun hne => (hfree.2.2 hne).1⟩, rfl, rfl⟩

/-- The action keeps an assertion. -/
def Keeps {W C ρ : Type} (P : W → Prop) (a : Interruptible.Action W C ρ) : Prop :=
  ∀ w c r w', P w → a w c = some (r, w') → P w'

/-- Such actions leave `processx__select` set. -/
theorem common_select {Os D P : Type} :
    Common fun {ρ} (a : Act Os D P ρ) => Keeps (fun w => w.cells.select = true) a where
  spares _ ha w c r w' hw hact := by simpa [(ha w c r w' hact).1] using hw
  access f hf w c r w' hw hact := by
    obtain ⟨-, rfl⟩ := Prod.mk.inj (Option.some.inj hact)
    exact hf w.cells hw

/-- A round with the sockets of curl leaves `processx__select` set. -/
theorem threadGetstatusSelect_select (dwMilliseconds : ℕ) :
    (threadGetstatusSelect dwMilliseconds).Each
      fun a => Keeps (fun w => w.cells.select = true) a := by
  have hwake : ∀ notified, Keeps (fun w => w.cells.select = true) (wake notified) := by
    intro notified w c r w' hw hact
    obtain ⟨net, -, heq⟩ := Option.map_eq_some_iff.mp hact
    obtain ⟨-, rfl⟩ := Prod.mk.inj heq
    exact hw
  refine common_select.startThread.bind fun _ => ?_
  -- the arguments are stored, with `processx__select` among them
  refine .step (common_select.access _ fun _ => id) fun _ => ?_
  refine .step (common_select.access _ fun _ _ => rfl) fun _ => ?_
  refine .step (common_select.access _ fun _ => id) fun _ => ?_
  -- the two threads at work
  refine .step (common_select.spares _ setStart_spares) fun _ => ?_
  refine .step (common_select.spares _ (mainAction_spares _)) fun notified => ?_
  refine .step (hwake notified) fun _ => ?_
  refine common_select.waitDone.bind fun _ => ?_
  exact .lift (common_select.access _ fun _ => id)

/-- A poll with curl leaves `processx__select` set. -/
theorem pollLoop_select (timeout : ℤ) (rounds : ℕ) (timeleft : ℤ) :
    (pollLoop true timeout rounds timeleft).Each
      fun a => Keeps (fun w => w.cells.select = true) a := by
  have hperhaps : Keeps (fun w => w.cells.select = true)
      (mainAction perhaps : Act Net Outcome ℕ Bool) :=
    common_select.spares _ (mainAction_spares _)
  induction rounds generalizing timeleft with
  | zero => trivial
  | succ rounds ih =>
    rw [pollLoop]
    by_cases hwhile : timeout < 0 ∨ timeleft ≥ 0
    · rw [if_pos hwhile]
      refine (threadGetstatusSelect_select _).bind fun success => ?_
      refine (common_select.errorOf success).bind fun error => ?_
      refine .step (common_select.access _ fun _ => id) fun overlapped => ?_
      refine .step hperhaps fun fromCurl => ?_
      refine Prog.Each.bind ?_ fun fromPacket => ?_
      · cases overlapped with
        | some con => exact .lift hperhaps
        | none =>
          unfold packetData
          split_ifs <;> trivial
      · split_ifs
        · trivial
        · refine .step hperhaps fun interrupted => ?_
          split_ifs
          · trivial
          · exact ih _
    · rw [if_neg hwhile]
      trivial

/-- A socket is closed that is not one of somebody else. -/
theorem Net.closeSocket_spec {net : Net} {socket : ℕ} (hsocket : net.owner socket ≠ some .other) :
    (net.closeSocket socket).harm = net.harm ∧
      (net.closeSocket socket).notifySocket = net.notifySocket ∧
      (net.closeSocket socket).owner socket = none ∧
      ∀ other, net.owner other ≠ some .other → (net.closeSocket socket).owner other ≠ some .other := by
  unfold closeSocket
  cases howner : net.owner socket with
  | none => exact ⟨rfl, rfl, howner, fun _ h => h⟩
  | some owner =>
    cases owner with
    | other => exact absurd howner hsocket
    | package =>
      refine ⟨rfl, rfl, by simp [Net.owner, setSocket], fun other hother => ?_⟩
      simp only [Net.owner, setSocket] at hother ⊢
      split_ifs with hzero heq
      · simp
      · simp
      · rwa [if_neg hzero] at hother

/-- The notify sockets are not those of somebody else. -/
theorem Net.Owns.not_other {net : Net} (hnet : net.Owns) :
    net.owner net.notifySocket.1 ≠ some .other ∧ net.owner net.notifySocket.2 ≠ some .other := by
  constructor
  · by_cases hzero : net.notifySocket.1 = 0
    · simp [owner, hzero]
    · simp [owner, hzero, hnet.first hzero]
  · by_cases hzero : net.notifySocket.2 = 0
    · simp [owner, hzero]
    · simp [owner, hzero, hnet.second hzero]

/-- The notify sockets are closed. -/
theorem Net.Owns.closeSockets {net net' : Net} {d : Outcome} {r : Unit} (hnet : net.Owns)
    (h : closeSockets net d = some (r, net')) :
    net'.harm = net.harm ∧ net'.notifySocket = net.notifySocket ∧
      net'.owner net.notifySocket.2 = none := by
  obtain ⟨-, rfl⟩ := Prod.mk.inj (Option.some.inj h)
  obtain ⟨hfirst, hsecond⟩ := hnet.not_other
  obtain ⟨hharm, hnumbers, -, hothers⟩ := closeSocket_spec hfirst
  obtain ⟨hharm', hnumbers', hclosed, -⟩ := closeSocket_spec (hothers _ hsecond)
  exact ⟨hharm'.trans hharm, hnumbers'.trans hnumbers, hclosed⟩

/-- The notify sockets are closed, and the I/O thread will send to one of them. -/
def Stale (sent : ℕ) (v : Direct Net ℕ) : Prop :=
  v.select = true ∧ v.os.owner v.os.notifySocket.2 ≠ some .package ∧ sent ≤ v.os.misdirected

/-- A socket that the package has closed does not become one of the package. -/
theorem Net.move_closed {net net' : Net} {n : Happening} {socket : ℕ}
    (hnet : net.owner socket ≠ some .package) (h : net.move n = some net') :
    net'.owner socket ≠ some .package := by
  have hset : ∀ other owner, owner ≠ some .package →
      (net.setSocket other owner).owner socket ≠ some .package := by
    intro other owner howner
    simp only [Net.owner, Net.setSocket] at hnet ⊢
    split_ifs with hzero heq
    · simp
    · exact howner
    · rwa [if_neg hzero] at hnet
  cases n with
  | arrive con error =>
    obtain rfl := Option.some.inj h
    exact hnet
  | open_ other =>
    simp only [Net.move] at h
    split_ifs at h
    obtain rfl := Option.some.inj h
    exact hset other _ (by simp)
  | close other =>
    simp only [Net.move] at h
    split_ifs at h
    obtain rfl := Option.some.inj h
    exact hset other _ (by simp)

/-- What happens to other sockets leaves the stale ones stale. -/
theorem Stale.move {sent : ℕ} {v v' : Direct Net ℕ} {n : Happening} (hv : Stale sent v)
    (h : Direct.move netKernel v n = some v') : Stale sent v' := by
  obtain ⟨net, hnet, rfl⟩ := Option.map_eq_some_iff.mp h
  obtain ⟨hharm, -, -, hnumbers, -⟩ := Net.move_spec hnet
  refine ⟨hv.1, ?_, hv.2.2.trans_eq (Prod.mk.inj hharm).1.symm⟩
  rw [hnumbers]
  exact Net.move_closed hv.2.1 hnet

/-- Between two polls or reads, with some assertion about direct calls. -/
def ReadyAnd (P : Direct Net ℕ → Prop) (w : World Net ℕ) : Prop := Ready w ∧ P w.direct

/-- What happens keeps an assertion between two calls, if it does so with direct calls. -/
theorem ReadyAnd.kept {I : World Net ℕ → Prop} {P : Direct Net ℕ → Prop}
    (hP : ∀ v n v', P v → Direct.move netKernel v n = some v' → P v')
    (hI : ∀ w, Ready w → P w.direct → I w) :
    Kept (World.move netKernel) I (ReadyAnd P) where
  move w m w' hw hmove := by
    obtain ⟨hready, n, hnet, heq⟩ := ready_move hw.1 hmove
    refine ⟨hready, hP w.direct n w'.direct hw.2 ?_⟩
    rw [heq]
    simp [Direct.move, World.direct, netKernel, hnet]
  safe w hw := hI w hw.1 hw.2

/-- The sockets are stale, and nothing has been lost. -/
def StaleWith (harm : ℕ × ℕ) : World Net ℕ → Prop :=
  ReadyAnd fun v => v.os.harm = harm ∧ Stale harm.1 v

/-- Between two calls the sockets stay stale. -/
theorem StaleWith.kept : Kept (World.move netKernel) (Unharmed harm) (StaleWith harm) := by
  refine ReadyAnd.kept (fun v n v' hv hmove => ?_) fun w hready hw => ⟨hready.healthy, hw.1⟩
  obtain ⟨net, hnet, rfl⟩ := Option.map_eq_some_iff.mp hmove
  exact ⟨(Net.move_spec hnet).1.trans hv.1, hv.2.move hmove⟩

/-- What a poll with curl leaves: nothing has been lost, and when it returns, its sockets are closed. -/
def Polled {β : Type} (harm : ℕ × ℕ) : Except String β → World Net ℕ → Prop
  | .ok _ => StaleWith harm
  | .error _ => ReadyWith harm

/-- A poll does no harm, whether it returns or not. -/
theorem Polled.ready {β : Type} {r : Except String β} {w : World Net ℕ} (hw : Polled harm r w) :
    ReadyWith harm w := by
  cases r with
  | ok => exact ⟨hw.1, hw.2.1⟩
  | error => exact hw

/-- The arguments of a poll with curl and its notify sockets. -/
theorem pollBody_sockets {β : Type} {f : Unit → Call Net Outcome ℕ β}
    {Q : Except String β → World Net ℕ → Prop}
    (hf : Ensures (World.move netKernel) (Unharmed harm)
      (fun w => AtRest harm w ∧ w.cells.select = true) (f ()) Q) :
    Ensures (World.move netKernel) (Unharmed harm) (ReadyWith harm) (do
      Prog.lift (store fun cells => { cells with overlapped := none })
      Prog.lift (mainAction fdZero)
      Prog.lift (mainAction socketPair)
      Prog.lift (store fun cells => { cells with select := true })
      f ()) Q := by
  -- `overlapped = 0`
  refine .step ReadyWith.kept (fun _ => ReadyWith harm) (fun w c r w' hw hact => ?_) fun _ => ?_
  · obtain ⟨hready, hos, -⟩ := hw.1.access hact
    exact ⟨hready, hos ▸ hw.2⟩
  -- `FD_ZERO()`
  refine .step ReadyWith.kept (fun _ => ReadyWith harm) (fun w c r w' hw hact => ?_) fun _ => ?_
  · obtain ⟨hready, -, d, ha⟩ := hw.1.main hact
    obtain ⟨-, hnet⟩ := Prod.mk.inj (Option.some.inj ha)
    refine ⟨hready, ?_⟩
    rw [← hnet]
    exact hw.2
  -- the notify sockets
  refine .step ReadyWith.kept (fun _ => AtRest harm) (fun w c r w' hw hact => ?_) fun _ => ?_
  · obtain ⟨⟨⟨place, hidle⟩, hjoining⟩, -, d, ha⟩ := hw.1.main hact
    obtain ⟨howns, hharm, hinbox⟩ := socketPair_spec ha
    exact ⟨place, hidle, hjoining, howns, hharm.trans hw.2, fun _ => hinbox⟩
  -- `processx__select = 1`
  refine .step AtRest.kept (fun _ w => AtRest harm w ∧ w.cells.select = true)
    (fun w c r w' hw hact => ?_) fun _ => hf
  obtain ⟨place, hrested⟩ := hw
  obtain ⟨hrested', -, hcells⟩ := hrested.access hact
  exact ⟨⟨place, hrested'⟩, by rw [hcells]⟩

/-- A poll with curl does no harm. -/
theorem pollBody_curl (rounds : ℕ) (timeout : ℤ) :
    Ensures (World.move netKernel) (Unharmed harm) (ReadyWith harm) (pollBody true rounds timeout)
      (Polled harm) := by
  have hselect : ∀ (w : World Net ℕ) m w', w.cells.select = true →
      World.move netKernel w m = some w' → w'.cells.select = true :=
    fun w m w' hw hmove => (move_spares netKernel hmove).2.trans hw
  have hloop := (@pollLoop_rested harm timeout rounds timeout).frame hselect
    (pollLoop_select timeout rounds timeout)
  refine pollBody_sockets (f := fun _ => pollLoop true timeout rounds timeout >>= fun found =>
    Prog.lift (mainAction closeSockets) >>= fun _ => .ret found) ?_
  refine .bind hloop (fun found => ?_) fun e w hw => hw.1.ready
  -- the notify sockets are closed
  refine .step (AtRest.kept.and hselect) (fun _ => StaleWith harm) (fun w c r w' hw hact => ?_)
    fun _ => .ret StaleWith.kept fun w hw => hw
  obtain ⟨hready, hcells, d, ha⟩ := hw.1.ready.1.main hact
  obtain ⟨place, hrested⟩ := hw.1
  obtain ⟨hharm, hnumbers, hclosed⟩ := hrested.owns.closeSockets ha
  refine ⟨hready, hharm.trans hrested.harm, ?_, ?_, ?_⟩
  · simpa [World.direct, hcells] using hw.2
  · simp [World.direct, hnumbers, hclosed]
  · exact (Prod.mk.inj (hharm.trans hrested.harm)).1.ge

/-- Nothing that happens makes the threads less ready. -/
theorem Ready.kept : Kept (World.move netKernel) Healthy Ready where
  move _ _ _ hw hmove := (ready_move hw hmove).1
  safe _ hw := hw.healthy

/-- A poll without curl, which is a program with calls. -/
theorem pollBody_plain (rounds : ℕ) (timeout : ℤ) :
    Ensures (World.move netKernel) Healthy Ready (pollBody false rounds timeout)
      (fun _ => Ready) := by
  have hloop := client_ready (plainLoop timeout rounds timeout)
  rw [← pollLoop_plain] at hloop
  -- `overlapped = 0`, `FD_ZERO()` and `processx__select = 0`
  refine .step Ready.kept (fun _ => Ready) (fun w c r w' hw hact => (hw.access hact).1) fun _ => ?_
  refine .step Ready.kept (fun _ => Ready) (fun w c r w' hw hact => (hw.main hact).1) fun _ => ?_
  refine .step Ready.kept (fun _ => Ready) (fun w c r w' hw hact => (hw.access hact).1) fun _ => ?_
  refine .bind hloop (fun found => ?_) fun _ _ hw => hw
  exact .step Ready.kept (fun _ => Ready) (fun w c r w' hw hact => (hw.main hact).1)
    fun _ => .ret Ready.kept fun _ hw => hw

/-- A use that gives another name to a result keeps what the result does not matter for. -/
theorem Ensures.named {β : Type} {I P R : World Net ℕ → Prop} {p : Call Net Outcome ℕ β}
    {f : β → UseEnd} (hp : Ensures (World.move netKernel) I P p (fun _ => R))
    (hR : Kept (World.move netKernel) I R) :
    Ensures (World.move netKernel) I P (p >>= fun b => .ret (f b)) (fun _ => R) :=
  .bind hp (fun _ => .ret hR fun _ hw => hw) fun _ _ hw => hw

/-- Each use leaves the threads ready for the next one. -/
theorem use_ready (rounds : ℕ) (use : Use) :
    Ensures (World.move netKernel) Healthy Ready (use.run rounds) (fun _ => Ready) := by
  cases use with
  | poll curl timeout =>
    refine Ensures.named ?_ Ready.kept
    cases curl with
    | false => exact pollBody_plain rounds timeout
    | true =>
      have hharm : ∀ harm, Ensures (World.move netKernel) Healthy (ReadyWith harm)
          (pollBody true rounds timeout) (fun _ => Ready) := fun harm =>
        ((pollBody_curl rounds timeout).weaken fun _ hw => hw.1).conseq (fun _ hw => hw)
          fun _ _ hw => hw.ready.1
      exact (Ensures.of_exists hharm).conseq (fun w hw => ⟨w.os.harm, hw, rfl⟩) fun _ _ hw => hw
  | startRead con => exact Ensures.named (client_ready _) Ready.kept
  | read con => exact Ensures.named (client_ready _) Ready.kept

/-- So does a sequence of uses. -/
theorem uses_ready (rounds : ℕ) (uses : List Use) :
    Ensures (World.move netKernel) Healthy Ready (runUses rounds uses) (fun _ => Ready) := by
  induction uses with
  | nil => exact .ret Ready.kept fun _ hw => hw
  | cons use uses ih =>
    refine .attempt (use_ready rounds use) fun _ => ?_
    exact .bind ih (fun _ => .ret Ready.kept fun _ hw => hw) fun _ _ hw => hw

/-- The first steps of a poll with curl, with the I/O thread to be started. -/
def pollCues : List (Cue (Move Outcome Happening) (Choice Outcome)) :=
  mains 1 ++ [.act (.os .ok), .act (.os (.sockets 1 2))] ++ mains 7 ++ callbacks 6 .ok ++
    mains 5 ++ callbacks 3 .ok ++ [.act (.os .ok), .act .ok]

/-- The other ones: a socket of curl is ready. -/
def curlCues : List (Cue (Move Outcome Happening) (Choice Outcome)) :=
  callbacks 5 .ok ++ mains 4 ++ [.act (.os .ok), .act (.os .ok)]

/-- The I/O thread is not there at the beginning. -/
theorem ready_start : Ready { os := {} } := ⟨⟨none, rfl, rfl, rfl, Or.inl rfl, rfl, rfl⟩, rfl⟩

section Direct

variable {φ : Request → Prop} {P : Direct Net ℕ → Prop}

/-- All calls of a program are of some kind, and it changes nothing but what it finds. -/
def Client.Calls {α : Type} (φ : Request → Prop) : Client Net Outcome ℕ α → Prop
  | .ret _ => True
  | .throw _ => True
  | .spin => True
  | .main a next => (∀ P : Net → Prop, Keeps P a) ∧ ∀ r, (next r).Calls φ
  | .setSelect _ _ => False
  | .clearOverlapped next => next.Calls φ
  | .call request next => φ request ∧ ∀ answer, (next answer).Calls φ

/-- An assertion on programs with direct calls that all calls of some kind keep. -/
structure Guards (harm : ℕ × ℕ) (φ : Request → Prop) (P : Direct Net ℕ → Prop) : Prop where
  harm : ∀ v, P v → v.os.harm = harm
  congr : ∀ v v', P v → v'.select = v.select → v'.os = v.os → P v'
  move : ∀ v n v', P v → Direct.move netKernel v n = some v' → P v'
  serve : ∀ request, φ request → (serve netKernel request).Each fun a => Keeps P a

/-- What happens on its own keeps such an assertion. -/
theorem Guards.kept (h : Guards harm φ P) :
    Kept (Direct.move netKernel) (fun v => v.os.harm = harm) P := ⟨h.move, h.harm⟩

/-- The start of the I/O thread changes neither `processx__select` nor the system. -/
theorem startDirect_keeps
    (hcongr : ∀ v v', P v → v'.select = v.select → v'.os = v.os → P v') :
    (startDirect : DirectCall Net Outcome ℕ Unit).Each fun a => Keeps P a := by
  have hset : Keeps P (setStarted : DirectAct Net Outcome ℕ Bool) := by
    intro v c r v' hv hact
    cases c with
    | ok | fail =>
      obtain ⟨-, rfl⟩ := Prod.mk.inj (Option.some.inj hact)
      exact hcongr v _ hv rfl rfl
    | os d => cases hact
  refine .step (fun v c r v' hv hact => ?_) fun started => ?_
  · obtain ⟨-, rfl⟩ := Prod.mk.inj (Option.some.inj hact)
    exact hv
  · split_ifs
    · trivial
    · refine .step (fun v c r v' hv hact => ?_) fun ok => ?_
      · cases c with
        | ok | fail =>
          obtain ⟨-, rfl⟩ := Prod.mk.inj (Option.some.inj hact)
          exact hv
        | os d => cases hact
      · split_ifs
        · refine .step hset fun ok => ?_
          split_ifs <;> trivial
        · trivial

/-- So does a program with direct calls of that kind. -/
theorem Guards.client {α : Type} (h : Guards harm φ P) (client : Client Net Outcome ℕ α)
    (hclient : client.Calls φ) : (client.direct netKernel).Each fun a => Keeps P a := by
  induction client with
  | ret | throw | spin => trivial
  | main a next ih =>
    refine .step (fun v c r v' hv hact => ?_) fun r => ih r (hclient.2 r)
    cases c with
    | ok | fail => cases hact
    | os d =>
      obtain ⟨⟨r', net⟩, ha, heq⟩ := Option.map_eq_some_iff.mp hact
      obtain ⟨-, rfl⟩ := Prod.mk.inj heq
      exact h.congr v _ hv rfl (hclient.1 (· = v.os) v.os d _ net rfl ha)
  | setSelect => exact hclient.elim
  | clearOverlapped next ih =>
    refine .step (fun v c r v' hv hact => ?_) fun _ => ih hclient
    obtain ⟨-, rfl⟩ := Prod.mk.inj (Option.some.inj hact)
    exact h.congr v _ hv rfl rfl
  | call request next ih =>
    refine (startDirect_keeps h.congr).bind fun _ => (h.serve request hclient.1).bind fun error =>
      .step (fun v c r v' hv hact => ?_) fun overlapped => ih _ (hclient.2 _)
    obtain ⟨-, rfl⟩ := Prod.mk.inj (Option.some.inj hact)
    exact hv

/-- With two threads as well. -/
theorem Guards.threaded {α : Type} (h : Guards harm φ P) (client : Client Net Outcome ℕ α)
    (hclient : client.Calls φ) :
    Ensures (World.move netKernel) (Unharmed harm) (fun w => Ready w ∧ P w.direct) client.threaded
      (fun _ w => Ready w ∧ P w.direct) :=
  ((client_ready client).and ((client_follows netKernel client).ensures
    (.each h.kept (h.client client hclient)))).conseq (fun _ hw => ⟨hw.1, hw.1.quiet, hw.2⟩)
    fun _ _ hw => ⟨hw.1, hw.2.2⟩

end Direct

/-- There have been no notify sockets yet. -/
def Net.Fresh (net : Net) : Prop := net.notifySocket = (0, 0)

/-- A system call that keeps what an assertion says about the state of the system. -/
theorem onOs_keeps {ρ : Type} {a : SysCall Net Outcome ρ} {P : Direct Net ℕ → Prop}
    (ha : ∀ v d r net, P v → a v.os d = some (r, net) → P { v with os := net }) :
    Keeps P (onOs a : DirectAct Net Outcome ℕ ρ) := by
  intro v c r v' hv hact
  cases c with
  | ok | fail => cases hact
  | os d =>
    obtain ⟨⟨r', net⟩, hos, heq⟩ := Option.map_eq_some_iff.mp hact
    obtain ⟨-, rfl⟩ := Prod.mk.inj heq
    exact ha v d r' net hv hos

/-- A call that changes nothing keeps every assertion. -/
theorem onOs_quiet (P : Direct Net ℕ → Prop) :
    Keeps P (onOs Net.quietCall : DirectAct Net Outcome ℕ (Option ErrorCode)) :=
  onOs_keeps fun v d r net hv hact => by rwa [quietCall_spec hact]

/-- Starts of reads do no harm. -/
theorem guards_starts :
    Guards harm (fun request => ∀ dwMilliseconds, request ≠ .getstatus dwMilliseconds)
      (fun v => v.os.harm = harm) where
  harm _ hv := hv
  congr v v' hv _ hos := by rwa [hos]
  move v n v' hv hmove := by
    obtain ⟨net, hnet, rfl⟩ := Option.map_eq_some_iff.mp hmove
    exact (Net.move_spec hnet).1.trans hv
  serve request hrequest := by
    cases request with
    | readfile | connectpipe => exact .lift (onOs_quiet _)
    | getstatus dwMilliseconds => exact absurd rfl (hrequest dwMilliseconds)

/-- Before the first poll with curl, no call does harm. -/
theorem guards_fresh :
    Guards harm (fun _ => True) (fun v => v.select = false ∧ v.os.Fresh ∧ v.os.harm = harm) where
  harm _ hv := hv.2.2
  congr v v' hv hselect hos := by rwa [hselect, hos]
  move v n v' hv hmove := by
    obtain ⟨net, hnet, rfl⟩ := Option.map_eq_some_iff.mp hmove
    obtain ⟨hharm, -, -, hnumbers, -⟩ := Net.move_spec hnet
    exact ⟨hv.1, hnumbers.trans hv.2.1, hharm.trans hv.2.2⟩
  serve request _ := by
    cases request with
    | readfile | connectpipe => exact .lift (onOs_quiet _)
    | getstatus dwMilliseconds =>
      refine .step (onOs_quiet _) fun failed => ?_
      split_ifs
      · trivial
      · refine .step (fun v c r v' hv hact => ?_) fun error => .lift fun v c r v' hv hact => ?_
        · cases c with
          | ok | fail => cases hact
          | os d =>
            obtain ⟨⟨⟨error, packet⟩, net⟩, hos, heq⟩ := Option.map_eq_some_iff.mp hact
            obtain ⟨-, rfl⟩ := Prod.mk.inj heq
            obtain ⟨queue, rfl⟩ := getQueued_spec hos
            exact hv
        · cases c with
          | ok | fail => cases hact
          | os d =>
            simp only [notify, hv.1, Bool.false_eq_true, if_false] at hact
            obtain ⟨-, rfl⟩ := Prod.mk.inj (Option.some.inj hact)
            exact hv

/-- Calls of some kind are calls of a wider kind. -/
theorem Client.Calls.mono {α : Type} {φ ψ : Request → Prop} {client : Client Net Outcome ℕ α}
    (h : client.Calls φ) (hφ : ∀ request, φ request → ψ request) : client.Calls ψ := by
  induction client with
  | ret | throw | spin => trivial
  | main a next ih => exact ⟨h.1, fun r => ih r (h.2 r)⟩
  | setSelect => exact h.elim
  | clearOverlapped next ih => exact ih h
  | call request next ih => exact ⟨hφ request h.1, fun answer => ih answer (h.2 answer)⟩

/-- A start of a read asks for no packet. -/
theorem connectionStartRead_calls (con : ReadTarget) :
    (connectionStartRead con).Calls
      fun request => ∀ dwMilliseconds, request ≠ .getstatus dwMilliseconds := by
  unfold connectionStartRead
  split_ifs
  · trivial
  · trivial
  all_goals
    refine ⟨nofun, fun answer => ?_⟩
    dsimp only
    split_ifs
  all_goals first | trivial | exact ⟨nofun, fun _ => trivial⟩

/-- One program behind another one. -/
theorem Client.Calls.bind {α β : Type} {φ : Request → Prop} {client : Client Net Outcome ℕ α}
    {f : α → Client Net Outcome ℕ β} (h : client.Calls φ) (hf : ∀ a, (f a).Calls φ) :
    (client.bind f).Calls φ := by
  induction client with
  | ret a => exact hf a
  | throw | spin => trivial
  | main a next ih => exact ⟨h.1, fun r => ih r (h.2 r)⟩
  | setSelect => exact h.elim
  | clearOverlapped next ih => exact ih h
  | call request next ih => exact ⟨h.1, fun answer => ih answer (h.2 answer)⟩

/-- The loop of a read has calls of any kind. -/
theorem readLoop_calls (ccon rounds : ℕ) : (readLoop ccon rounds).Calls fun _ => True := by
  induction rounds with
  | zero => trivial
  | succ rounds ih =>
    refine ⟨trivial, fun answer => ?_⟩
    dsimp only
    split
    · split_ifs
      · trivial
      · exact ih
    · split_ifs <;> trivial

/-- A read has calls of any kind. -/
theorem connectionRead_calls (rounds : ℕ) (con : ReadTarget) :
    (connectionRead rounds con).Calls fun _ => True := by
  unfold connectionRead
  split_ifs
  · trivial
  · trivial
  · trivial
  · refine Client.Calls.bind ((connectionStartRead_calls con).mono fun _ _ => trivial)
      fun pending => ?_
    split_ifs
    · exact readLoop_calls con.ccon rounds
    · trivial

/-- Something that may be so changes nothing. -/
theorem perhaps_keeps (P : Net → Prop) : Keeps P perhaps := by
  intro net d b net' hnet hact
  rwa [perhaps_spec hact]

/-- The loop of a poll without curl has calls of any kind. -/
theorem plainLoop_calls (timeout : ℤ) (rounds : ℕ) (timeleft : ℤ) :
    (plainLoop timeout rounds timeleft).Calls fun _ => True := by
  induction rounds generalizing timeleft with
  | zero => trivial
  | succ rounds ih =>
    have hagain : Client.Calls (fun _ => True) (.main perhaps fun interrupted =>
        if interrupted then .throw "interrupt"
        else plainLoop timeout rounds (timeleft - pollInterval)) := by
      refine ⟨perhaps_keeps, fun interrupted => ?_⟩
      cases interrupted with
      | true => trivial
      | false => exact ih _
    rw [plainLoop]
    by_cases hwhile : timeout < 0 ∨ timeleft ≥ 0
    · rw [if_pos hwhile]
      refine ⟨trivial, fun answer => ?_⟩
      dsimp only
      split
      · refine ⟨perhaps_keeps, fun fromPacket => ?_⟩
        cases fromPacket with
        | true => trivial
        | false => exact hagain
      · by_cases herror : answer.error ≠ waitTimeout ∧ answer.error ≠ 0
        · rw [if_pos herror]
          trivial
        · rw [if_neg herror]
          exact hagain
    · rw [if_neg hwhile]
      trivial

/-- Between two calls such an assertion stays true, and no harm is done. -/
theorem Guards.ready {φ : Request → Prop} {P : Direct Net ℕ → Prop} (h : Guards harm φ P) :
    Kept (World.move netKernel) (Unharmed harm) (ReadyAnd P) :=
  ReadyAnd.kept h.move fun _ hready hw => ⟨hready.healthy, h.harm _ hw⟩

/-- Before the first poll with curl. -/
abbrev FreshWith (harm : ℕ × ℕ) : World Net ℕ → Prop :=
  ReadyAnd fun v => v.select = false ∧ v.os.Fresh ∧ v.os.harm = harm

/-- The notify sockets are not there yet. -/
theorem Net.Fresh.closeSockets {net net' : Net} {d : Outcome} {r : Unit} (hnet : net.Fresh)
    (h : closeSockets net d = some (r, net')) : net' = net := by
  obtain ⟨-, rfl⟩ := Prod.mk.inj (Option.some.inj h)
  have hclose : net.closeSocket 0 = net := by simp [Net.closeSocket, Net.owner]
  rw [hnet, hclose, hclose]

/-- A poll without curl does no harm before the first one with curl. -/
theorem pollBody_fresh (rounds : ℕ) (timeout : ℤ) :
    Ensures (World.move netKernel) (Unharmed harm) (FreshWith harm)
      (pollBody false rounds timeout) (fun _ => FreshWith harm) := by
  have hkept := (guards_fresh : Guards harm _ _).ready
  have hloop := (guards_fresh : Guards harm _ _).threaded (plainLoop timeout rounds timeout)
    (plainLoop_calls timeout rounds timeout)
  rw [← pollLoop_plain] at hloop
  -- `overlapped = 0`
  refine .step hkept (fun _ => FreshWith harm) (fun w c r w' hw hact => ?_) fun _ => ?_
  · obtain ⟨hready, hos, hcells⟩ := hw.1.access hact
    exact ⟨hready, by simpa [World.direct, hos, hcells] using hw.2⟩
  -- `FD_ZERO()`
  refine .step hkept (fun _ => FreshWith harm) (fun w c r w' hw hact => ?_) fun _ => ?_
  · obtain ⟨hready, hcells, d, ha⟩ := hw.1.main hact
    obtain ⟨-, hnet⟩ := Prod.mk.inj (Option.some.inj ha)
    refine ⟨hready, ?_, ?_⟩
    · simpa [World.direct, hcells] using hw.2.1
    · rw [World.direct, ← hnet]
      exact hw.2.2
  -- `processx__select = 0`
  refine .step hkept (fun _ => FreshWith harm) (fun w c r w' hw hact => ?_) fun _ => ?_
  · obtain ⟨hready, hos, hcells⟩ := hw.1.access hact
    refine ⟨hready, by simp [World.direct, hcells], ?_⟩
    simpa [World.direct, hos] using hw.2.2
  -- the loop, and `closesocket()` for sockets that are not there
  refine .bind hloop (fun found => ?_) fun _ _ hw => hw
  refine .step hkept (fun _ => FreshWith harm) (fun w c r w' hw hact => ?_)
    fun _ => .ret hkept fun _ hw => hw
  obtain ⟨hready, hcells, d, ha⟩ := hw.1.main hact
  refine ⟨hready, ?_⟩
  simpa [World.direct, hcells, hw.2.2.1.closeSockets ha] using hw.2

namespace Use

/-- Is it a poll with sockets of curl? -/
def isCurl : Use → Bool
  | .poll curl _ => curl
  | _ => false

/-- Does it neither use nor close notify sockets that it has not made? -/
def isTame : Use → Bool
  | .poll curl _ => curl
  | .startRead _ => true
  | .read _ => false

end Use

/-- Polls with curl and starts of reads do no harm. -/
theorem use_tame (rounds : ℕ) (use : Use) (huse : use.isTame = true) :
    Ensures (World.move netKernel) (Unharmed harm) (ReadyWith harm) (use.run rounds)
      (fun _ => ReadyWith harm) := by
  cases use with
  | poll curl timeout =>
    obtain rfl : curl = true := huse
    refine Ensures.named ?_ ReadyWith.kept
    exact (pollBody_curl rounds timeout).conseq (fun _ hw => hw) fun _ _ hw => hw.ready
  | startRead con =>
    exact Ensures.named (guards_starts.threaded _ (connectionStartRead_calls con)) ReadyWith.kept
  | read con => cases huse

/-- Before the first poll with curl nothing does harm. -/
theorem use_fresh (rounds : ℕ) (use : Use) (huse : use.isCurl = false) :
    Ensures (World.move netKernel) (Unharmed harm) (FreshWith harm) (use.run rounds)
      (fun _ => FreshWith harm) := by
  have hkept := (guards_fresh : Guards harm _ _).ready
  cases use with
  | poll curl timeout =>
    obtain rfl : curl = false := huse
    exact Ensures.named (pollBody_fresh rounds timeout) hkept
  | startRead con =>
    have hcalls := (connectionStartRead_calls con).mono fun _ _ => trivial
    exact Ensures.named (guards_fresh.threaded _ hcalls) hkept
  | read con => exact Ensures.named (guards_fresh.threaded _ (connectionRead_calls rounds con)) hkept

/-- A session of polls with curl and starts of reads does no harm. -/
theorem uses_tame (rounds : ℕ) (uses : List Use) (huses : ∀ use ∈ uses, use.isTame = true) :
    Ensures (World.move netKernel) (Unharmed harm) (ReadyWith harm) (runUses rounds uses)
      (fun _ => ReadyWith harm) := by
  induction uses with
  | nil => exact .ret ReadyWith.kept fun _ hw => hw
  | cons use uses ih =>
    obtain ⟨huse, hrest⟩ := List.forall_mem_cons.mp huses
    exact .attempt (use_tame rounds use huse) fun _ => .bind (ih hrest)
      (fun _ => .ret ReadyWith.kept fun _ hw => hw) fun _ _ hw => hw

/-- Nor does a session that has nothing else behind its first poll with curl. -/
theorem uses_fresh (rounds : ℕ) (uses : List Use)
    (huses : uses.Pairwise fun use later => use.isCurl = true → later.isTame = true) :
    Ensures (World.move netKernel) (Unharmed harm) (FreshWith harm) (runUses rounds uses)
      (fun _ => ReadyWith harm) := by
  induction uses with
  | nil => exact .ret guards_fresh.ready fun _ hw => ⟨hw.1, hw.2.2.2⟩
  | cons use uses ih =>
    obtain ⟨hlater, hrest⟩ := List.pairwise_cons.mp huses
    cases hcurl : use.isCurl with
    | false =>
      exact .attempt (use_fresh rounds use hcurl) fun _ => .bind (ih hrest)
        (fun _ => .ret ReadyWith.kept fun _ hw => hw) fun _ _ hw => hw
    | true =>
      have htame : use.isTame = true := by cases use <;> simp_all [Use.isCurl, Use.isTame]
      exact (Ensures.attempt (use_tame rounds use htame) fun _ =>
        .bind (uses_tame rounds uses fun later hmem => hlater later hmem hcurl)
          (fun _ => .ret ReadyWith.kept fun _ hw => hw) fun _ _ hw => hw).conseq
        (fun _ hw => ⟨hw.1, hw.2.2.2⟩) fun _ _ hw => hw

/-- **The sockets of others are safe** in a session where nothing but polls with curl and starts of
reads comes after a poll with curl: at no moment has a message gone to a socket that is not one of the
package, or has such a socket been closed. -/
theorem session_harmless (rounds : ℕ) (uses : List Use) (w w' : World Net ℕ)
    (o : Option (Except String (List (Except String UseEnd))))
    (huses : uses.Pairwise fun use later => use.isCurl = true → later.isTame = true)
    (hw : Ready w) (hselect : w.cells.select = false) (hfresh : w.os.Fresh)
    (hrun : Runs (World.move netKernel) (runUses rounds uses) w o w') :
    w'.os.misdirected = w.os.misdirected ∧ w'.os.misclosed = w.os.misclosed := by
  have hharm := (uses_fresh rounds uses huses w o w' ⟨hw, hselect, hfresh, rfl⟩ hrun).1.2
  exact Prod.mk.inj hharm

/-- A poll with curl and a start of a read. -/
theorem session_harmless_start : ∃ w, Runs (World.move netKernel)
      (runUses 1 [.poll true 0, .startRead { ccon := 5 }]) { os := {} }
      (some (.ok [.ok (.polled true), .ok (.started true)])) w ∧
    w.os.misdirected = 0 ∧ w.os.misclosed = 0 := by
  obtain ⟨w, hrun, -⟩ : ∃ w, Runs (World.move netKernel)
      (runUses 1 [.poll true 0, .startRead { ccon := 5 }]) { os := {} }
      (some (.ok [.ok (.polled true), .ok (.started true)])) w ∧ w.os.queue = [] :=
    exists_run_of_drive (pollCues ++ curlCues ++ mains 5 ++ callbacks 6 (.fail errorIoPending) ++
      mains 4) (fun w : World Net ℕ => w.os.queue) rfl
  exact ⟨w, hrun, session_harmless 1 _ _ w _ (by simp [Use.isCurl, Use.isTame]) ready_start rfl
    rfl hrun⟩

/-- A read with stale sockets whose loop finds nothing, and still does not fail, has sent a message
to somebody else. -/
def Sent (sent : ℕ) (r : Except String ReadEnd) (v : Direct Net ℕ) : Prop :=
  r = .ok .nothing → sent < v.os.misdirected

/-- What a call leaves if the sockets are stale. -/
def Answered (sent : ℕ) (error : Option ErrorCode) (overlapped : Option ℕ) (v : Direct Net ℕ) :
    Prop :=
  Stale sent v ∧ (overlapped = none → error = some waitTimeout → sent < v.os.misdirected)

/-- What happens afterwards leaves an answer as it is. -/
theorem Answered.move {sent : ℕ} {error : Option ErrorCode} {overlapped : Option ℕ}
    {v v' : Direct Net ℕ} {n : Happening} (hv : Answered sent error overlapped v)
    (h : Direct.move netKernel v n = some v') :
    Answered sent error overlapped v' ∧ v'.overlapped = v.overlapped := by
  refine ⟨⟨hv.1.move h, fun hnone htimeout => ?_⟩, ?_⟩
  · obtain ⟨net, hnet, rfl⟩ := Option.map_eq_some_iff.mp h
    exact (hv.2 hnone htimeout).trans_eq (Prod.mk.inj (Net.move_spec hnet).1).1.symm
  · obtain ⟨net, -, rfl⟩ := Option.map_eq_some_iff.mp h
    rfl

/-- So it stays what it is until the main thread looks at it. -/
theorem Answered.kept (sent : ℕ) (error : Option ErrorCode) {I : Direct Net ℕ → Prop}
    (hI : ∀ v, I v) :
    Kept (Direct.move netKernel) I (fun v => Answered sent error v.overlapped v) where
  move v n v' hv hmove := by
    obtain ⟨hanswered, hoverlapped⟩ := hv.move hmove
    rwa [hoverlapped]
  safe v _ := hI v

/-- A call that fails does not fail with a timeout. -/
theorem failure_spec {net net' : Net} {e : ErrorCode} {error : Option ErrorCode}
    (h : net.failure e = some (error, net')) : error ≠ some waitTimeout := by
  simp only [Net.failure] at h
  split_ifs at h with htimeout
  obtain ⟨rfl, -⟩ := Prod.mk.inj (Option.some.inj h)
  simpa using htimeout

/-- The look for the completion port does not fail with a timeout. -/
theorem getDefaultIocp_stale {sent : ℕ} {v v' : Direct Net ℕ} {c : Choice Outcome}
    {failed : Option ErrorCode} (hv : Stale sent v)
    (hact : (onOs netKernel.getDefaultIocp : DirectAct Net Outcome ℕ (Option ErrorCode)) v c =
      some (failed, v')) : Stale sent v' ∧ failed ≠ some waitTimeout := by
  cases c with
  | ok | fail => cases hact
  | os d =>
    obtain ⟨⟨error, net⟩, hos, heq⟩ := Option.map_eq_some_iff.mp hact
    obtain ⟨rfl, rfl⟩ := Prod.mk.inj heq
    refine ⟨by rwa [quietCall_spec hos], ?_⟩
    cases d with
    | ok =>
      obtain ⟨rfl, -⟩ := Prod.mk.inj (Option.some.inj hos)
      nofun
    | fail e => exact failure_spec hos
    | sockets => cases hos

/-- The message goes to a socket of somebody else, or it fails with another code. -/
theorem notify_stale {sent : ℕ} {v v' : Direct Net ℕ} {c : Choice Outcome}
    {error error' : Option ErrorCode} (hv : Stale sent v)
    (hact : notify netKernel error v c = some (error', v')) :
    Answered sent error' v'.overlapped v' := by
  cases c with
  | ok | fail => cases hact
  | os d =>
    simp only [notify, hv.1, if_true, netKernel] at hact
    obtain ⟨⟨e, net⟩, hos, heq⟩ := Option.map_eq_some_iff.mp hact
    obtain ⟨rfl, rfl⟩ := Prod.mk.inj heq
    cases hsocket : v.os.owner v.os.notifySocket.2 with
    | none =>
      simp only [Net.send, hsocket] at hos
      obtain ⟨rfl, rfl⟩ := Prod.mk.inj (Option.some.inj hos)
      refine ⟨⟨rfl, hv.2⟩, fun _ htimeout => ?_⟩
      cases error <;> simp [wsaENotSock, waitTimeout] at htimeout
    | some owner =>
      cases owner with
      | package => exact absurd hsocket hv.2.1
      | other =>
        simp only [Net.send, hsocket] at hos
        obtain ⟨rfl, rfl⟩ := Prod.mk.inj (Option.some.inj hos)
        exact ⟨⟨rfl, hv.2.1, Nat.le_succ_of_le hv.2.2⟩, fun _ _ => Nat.lt_succ_of_le hv.2.2⟩

/-- With stale sockets, an empty queue gives another error than a timeout, or the message goes to
somebody else. -/
theorem getstatus_stale (sent dwMilliseconds : ℕ) {I : Direct Net ℕ → Prop} (hI : ∀ v, I v) :
    Ensures (Direct.move netKernel) I (Stale sent) (serve netKernel (.getstatus dwMilliseconds))
      (fun r v => ∃ error, r = .ok error ∧ Answered sent error v.overlapped v) := by
  have hstale : Kept (Direct.move netKernel) I (Stale sent) :=
    ⟨fun v n v' hv hmove => hv.move hmove, fun v _ => hI v⟩
  have hanswered := fun error => Answered.kept sent error hI
  refine .step hstale (fun failed v => Stale sent v ∧ failed ≠ some waitTimeout)
    (fun v c failed v' hv hact => getDefaultIocp_stale hv hact) fun failed => ?_
  refine .conseq (.of_fact (φ := failed ≠ some waitTimeout) fun hfailed => ?_)
    (fun v hv => ⟨hv.2, hv.1⟩) fun _ _ hq => hq
  split_ifs
  · exact .conseq (.ret (hanswered failed) fun v hv => ⟨failed, rfl, hv⟩)
      (fun v hv => ⟨hv, fun _ h => absurd h hfailed⟩) fun _ _ hq => hq
  -- the queue is looked at, and what is found is stored
  refine .step hstale (fun _ => Stale sent) (fun v c error v' hv hact => ?_) fun error => ?_
  · cases c with
    | ok | fail => cases hact
    | os d =>
      obtain ⟨⟨⟨e, packet⟩, net⟩, hos, heq⟩ := Option.map_eq_some_iff.mp hact
      obtain ⟨-, rfl⟩ := Prod.mk.inj heq
      obtain ⟨queue, rfl⟩ := getQueued_spec hos
      exact hv
  refine .act hstale (fun error' v => Answered sent error' v.overlapped v)
    (fun v c error' v' hv hact => notify_stale hv hact) fun error' => ?_
  exact .ret (hanswered error') fun v hv => ⟨error', rfl, hv⟩

/-- The loop of a read with stale sockets. -/
theorem readLoop_stale (sent ccon rounds : ℕ) {I : Direct Net ℕ → Prop} (hI : ∀ v, I v) :
    Ensures (Direct.move netKernel) I (Stale sent) ((readLoop ccon rounds).direct netKernel)
      (Sent sent) := by
  have hstale : Kept (Direct.move netKernel) I (Stale sent) :=
    ⟨fun v n v' hv hmove => hv.move hmove, fun v _ => hI v⟩
  induction rounds with
  | zero => exact .spin hstale
  | succ rounds ih =>
    have hstart : Ensures (Direct.move netKernel) I (Stale sent) startDirect
        (fun r v => Stale sent v ∧ ∀ e, r = .error e → Sent sent (.error e) v) :=
      (Ensures.each hstale (startDirect_keeps fun v v' hv hselect hos => by
        simpa [Stale, hselect, hos] using hv)).conseq (fun _ hv => hv) fun _ _ hv => ⟨hv, nofun⟩
    have hanswered : ∀ error overlapped,
        Kept (Direct.move netKernel) I (Answered sent error overlapped) := fun error overlapped =>
      ⟨fun v n v' hv hmove => (hv.move hmove).1, fun v _ => hI v⟩
    refine .bind hstart (fun _ => ?_) fun e v hv => hv.2 e rfl
    refine .bind ((getstatus_stale sent 0 hI).conseq (fun v hv => hv.1) fun r v hv => hv)
      (fun error => ?_) fun e v hv => ?_
    · refine .conseq (R := fun v => Answered sent error v.overlapped v) ?_ (fun v hv => ?_)
        fun _ _ hq => hq
      · refine .step (Answered.kept sent error hI) (Answered sent error)
          (fun v c overlapped v' hv hact => ?_) fun overlapped => ?_
        · obtain ⟨rfl, rfl⟩ := Prod.mk.inj (Option.some.inj hact)
          exact hv
        cases overlapped with
        | some con =>
          dsimp only
          split_ifs
          · exact .ret (hanswered error (some con)) fun v _ => nofun
          · exact ih.conseq (fun v hv => hv.1) fun _ _ hq => hq
        | none =>
          dsimp only
          split_ifs with herror
          · exact .throw (hanswered error none) fun v _ => nofun
          · refine .ret (hanswered error none) fun v hv _ => hv.2 rfl ?_
            cases error with
            | none => simp [waitTimeout] at herror
            | some e => simpa using herror
      · obtain ⟨error', heq, hanswered⟩ := hv
        obtain rfl := Except.ok.inj heq
        exact hanswered
    · obtain ⟨error, heq, -⟩ := hv
      cases heq

/-- Starts of reads leave the sockets as stale as they are. -/
theorem guards_stale :
    Guards harm (fun request => ∀ dwMilliseconds, request ≠ .getstatus dwMilliseconds)
      (fun v => v.os.harm = harm ∧ Stale harm.1 v) where
  harm _ hv := hv.1
  congr v v' hv hselect hos := by simpa [Stale, hselect, hos] using hv
  move v n v' hv hmove := by
    obtain ⟨net, hnet, rfl⟩ := Option.map_eq_some_iff.mp hmove
    exact ⟨(Net.move_spec hnet).1.trans hv.1, hv.2.move hmove⟩
  serve request hrequest := by
    cases request with
    | readfile | connectpipe => exact .lift (onOs_quiet _)
    | getstatus dwMilliseconds => exact absurd rfl (hrequest dwMilliseconds)

/-- With direct calls a sequence of programs is a sequence as well. -/
theorem Client.direct_bind {Os D N P α β : Type} (k : Kernel Os D N P) (client : Client Os D P α)
    (f : α → Client Os D P β) :
    (client.bind f).direct k = client.direct k >>= fun a => (f a).direct k := by
  induction client with
  | ret | throw | spin => rfl
  | main a next ih => exact bind_congr (m := DirectCall Os D P) ih
  | setSelect b next ih => exact bind_congr (m := DirectCall Os D P) fun _ => ih
  | clearOverlapped next ih => exact bind_congr (m := DirectCall Os D P) fun _ => ih
  | call request next ih =>
    simp only [Client.bind, Client.direct, ih, Prog.bind_assoc]

/-- A read with stale sockets. -/
theorem connectionRead_stale (rounds : ℕ) (con : ReadTarget) :
    Ensures (Direct.move netKernel) (fun _ => True) (fun v => v.os.harm = harm ∧ Stale harm.1 v)
      ((connectionRead rounds con).direct netKernel) (Sent harm.1) := by
  have hkept : Kept (Direct.move netKernel) (fun _ => True)
      (fun v => v.os.harm = harm ∧ Stale harm.1 v) := ⟨guards_stale.move, fun _ _ => trivial⟩
  unfold connectionRead
  split_ifs
  · exact .throw hkept fun _ _ => nofun
  · exact .ret hkept fun _ _ => nofun
  · exact .ret hkept fun _ _ => nofun
  rw [Client.direct_bind]
  have hstart := Ensures.each hkept
    ((@guards_stale harm).client _ (connectionStartRead_calls con))
  refine .bind (hstart.conseq (fun _ hv => hv) fun r v hv =>
    (⟨hv, fun e _ => nofun⟩ :
      (v.os.harm = harm ∧ Stale harm.1 v) ∧ ∀ e, r = .error e → Sent harm.1 (.error e) v))
    (fun pending => ?_) fun e v hv => hv.2 e rfl
  cases pending with
  | false => exact .conseq (.ret hkept fun _ _ => nofun) (fun _ hv => hv.1) fun _ _ hq => hq
  | true =>
    -- a read is pending, so the loop looks for its packet
    refine .conseq (.step hkept (fun _ => Stale harm.1) (fun v c r v' hv hact => ?_)
      fun _ => readLoop_stale harm.1 con.ccon rounds fun _ => trivial)
      (fun _ hv => hv.1) fun _ _ hq => hq
    obtain ⟨-, rfl⟩ := Prod.mk.inj (Option.some.inj hact)
    exact hv.2

/-- What a read leaves after a poll with curl. -/
def ReadAfter {β : Type} (sent : ℕ) (polled : Except String β) (read : Except String ReadEnd) :
    World Net ℕ → Prop :=
  ReadyAnd fun v => ∀ found, polled = .ok found → Sent sent read v

/-- Between two calls the count of lost messages does not change. -/
theorem ReadAfter.kept {β : Type} (sent : ℕ) (polled : Except String β)
    (read : Except String ReadEnd) :
    Kept (World.move netKernel) (fun _ => True) (ReadAfter sent polled read) := by
  refine ReadyAnd.kept (fun v n v' hv hmove found hfound hread => ?_) fun _ _ _ => trivial
  obtain ⟨net, hnet, rfl⟩ := Option.map_eq_some_iff.mp hmove
  exact (hv found hfound hread).trans_eq (Prod.mk.inj (Net.move_spec hnet).1).1.symm

/-- A read, whatever the poll before it left. -/
theorem read_after {β : Type} (rounds : ℕ) (con : ReadTarget) (polled : Except String β) :
    Ensures (World.move netKernel) (fun _ => True) (Polled harm polled)
      ((connectionRead rounds con).threaded) (fun r => ReadAfter harm.1 polled r) := by
  cases polled with
  | error e =>
    exact ((client_ready _).weaken fun _ _ => trivial).conseq (fun _ hw => hw.1)
      fun _ _ hw => ⟨hw, nofun⟩
  | ok found =>
    have hread := (client_follows netKernel (connectionRead rounds con)).ensures
      (@connectionRead_stale harm rounds con)
    exact (((client_ready _).and hread).weaken fun _ _ => trivial).conseq
      (fun _ hw => ⟨hw.1, hw.1.quiet, hw.2⟩) fun _ _ hw => ⟨hw.1, fun _ _ => hw.2.2⟩

/-- A poll with curl as a use. -/
theorem use_polled (rounds : ℕ) (timeout : ℤ) :
    Ensures (World.move netKernel) (fun _ => True) (ReadyWith harm)
      ((Use.poll true timeout).run rounds) (Polled harm) := by
  refine .bind ((pollBody_curl rounds timeout).weaken fun _ _ => trivial) (fun found => ?_)
    fun _ _ hw => hw
  exact .ret ⟨StaleWith.kept.move, fun _ _ => trivial⟩ fun _ hw => hw

/-- A read as a use, behind a poll. -/
theorem use_read_after {β : Type} (rounds : ℕ) (con : ReadTarget) (polled : Except String β) :
    Ensures (World.move netKernel) (fun _ => True) (Polled harm polled)
      ((Use.read con).run rounds) (fun r w => ∃ read, r = Except.map UseEnd.read read ∧
        ReadAfter harm.1 polled read w) := by
  refine .bind (read_after rounds con polled) (fun result => ?_) fun e w hw => ⟨.error e, rfl, hw⟩
  exact .ret (ReadAfter.kept harm.1 polled (.ok result)) fun w hw => ⟨.ok result, rfl, hw⟩

/-- **A read after a poll with curl** that has returned never looks for its packet and just finds
nothing: it finds its packet, it fails, or the I/O thread has sent a message to a socket of somebody
else. -/
theorem read_after_curl (rounds : ℕ) (con : ReadTarget) (timeout : ℤ) (found : Bool)
    (w w' : World Net ℕ) (hw : Ready w)
    (hrun : Runs (World.move netKernel) (runUses rounds [.poll true timeout, .read con]) w
      (some (.ok [.ok (.polled found), .ok (.read .nothing)])) w') :
    w.os.misdirected < w'.os.misdirected := by
  have huses : Ensures (World.move netKernel) (fun _ => True) (ReadyWith w.os.harm)
      (runUses rounds [.poll true timeout, .read con]) (fun r w' => ∃ polled read,
        r = .ok [polled, Except.map UseEnd.read read] ∧
          ReadAfter w.os.misdirected polled read w') := by
    refine .attempt (use_polled rounds timeout) fun polled => ?_
    have hread : Ensures (World.move netKernel) (fun _ => True) (Polled w.os.harm polled)
        (runUses rounds [.read con]) (fun r w' => ∃ read,
          r = .ok [Except.map UseEnd.read read] ∧ ReadAfter w.os.misdirected polled read w') := by
      refine .attempt (use_read_after rounds con polled) fun result => .of_exists fun read =>
        .of_fact fun hresult => ?_
      exact .ret (ReadAfter.kept w.os.misdirected polled read) fun w' hw => ⟨read, by rw [hresult], hw⟩
    refine .bind hread (fun results => .of_exists fun read => .of_fact fun hresults => ?_)
      fun e w' hw => ?_
    · obtain rfl := Except.ok.inj hresults
      exact .ret (ReadAfter.kept w.os.misdirected polled read) fun w' hw => ⟨polled, read, rfl, hw⟩
    · obtain ⟨read, heq, -⟩ := hw
      cases heq
  obtain ⟨polled, read, heq, -, hread⟩ := (huses w _ w' ⟨hw, rfl⟩ hrun).2 _ rfl
  obtain ⟨rfl, hrest⟩ := List.cons.inj (Except.ok.inj heq)
  refine hread _ rfl ?_
  cases read with
  | error e => cases (List.cons.inj hrest).1
  | ok result =>
    obtain rfl := UseEnd.read.inj (Except.ok.inj (List.cons.inj hrest).1)
    rfl

/-- Somebody else has got the number of the closed socket. -/
theorem read_after_curl_reused : ∃ w, Runs (World.move netKernel)
      (runUses 1 [.poll true 0, .read { ccon := 5, readPending := true }]) { os := {} }
      (some (.ok [.ok (.polled true), .ok (.read .nothing)])) w ∧ 0 < w.os.misdirected := by
  obtain ⟨w, hrun, -⟩ : ∃ w, Runs (World.move netKernel)
      (runUses 1 [.poll true 0, .read { ccon := 5, readPending := true }]) { os := {} }
      (some (.ok [.ok (.polled true), .ok (.read .nothing)])) w ∧ w.os.queue = [] :=
    exists_run_of_drive (pollCues ++ curlCues ++ [.move (.os (.open_ 2))] ++ mains 6 ++
      callbacks 3 .ok ++ callbacks 5 (.fail waitTimeout) ++ mains 4)
      (fun w : World Net ℕ => w.os.queue) rfl
  exact ⟨w, hrun, read_after_curl 1 _ 0 true _ w ready_start hrun⟩

end Processx.Win.Thread
