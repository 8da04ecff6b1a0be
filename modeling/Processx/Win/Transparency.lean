import Processx.Win.Thread

/-!
# The I/O thread is transparent

Whatever program uses the I/O thread, and however the two threads take turns: what happens is what
would happen if the main thread made the calls itself, and the main thread never uses a global
variable while the I/O thread might use it.
-/

namespace Processx.Win.Thread

open Interruptible

variable {Os D N P α : Type}

/-- Between two calls: the I/O thread waits, if there is one. -/
structure Idle (place : Option Place) (w : World Os P) : Prop where
  start : w.start = false
  done : w.done = false
  thread : w.iocpThread = place
  free : place = none ∨ place = some .waiting
  waiting : w.waiting = false
  race : w.race = false

/-- Between two calls the I/O thread does not use the global variables. -/
theorem Idle.busy {place : Option Place} {w : World Os P} (hw : Idle place w) : w.busy = false := by
  rcases hw.free with rfl | rfl <;> simp [World.busy, hw.start, hw.thread]

/-- The I/O thread stays where it is between two calls. -/
theorem Idle.callbackStep {k : Kernel Os D N P} {place : Option Place} {w : World Os P}
    (hw : Idle place w) (d : D) : callbackStep k w d = none := by
  rcases hw.free with rfl | rfl <;> simp [Thread.callbackStep, hw.thread, hw.start]

section Serving

variable (k : Kernel Os D N P) (q : DirectCall Os D P α) (v : Direct Os P)

/-- The program that is followed has come this far. -/
def At (rest : DirectCall Os D P α) (w : World Os P) : Prop :=
  Reaches (Direct.move k) q v rest w.direct

/-- The threads do not wait for each other: when the main thread waits for the second event, then that
one is set, or there is an I/O thread that does not wait for the first event, or may go on. A system
call of the I/O thread may still block. -/
def World.Goes (w : World Os P) : Prop :=
  w.waiting = true →
    w.done = true ∨ ∃ place, w.iocpThread = some place ∧ (place = .waiting → w.start = true)

/-- At any moment. -/
def Safe (w : World Os P) : Prop := (w.race = false ∧ w.Goes) ∧ ∃ rest, At k q v rest w

/-- The command and the arguments of a request are stored. -/
def Asked (w : World Os P) : Request → Prop
  | .readfile data => w.cells.cmd = .readfile ∧ w.cells.readfileData = data
  | .connectpipe ccon => w.cells.cmd = .connectpipe ∧ w.cells.readfileData.ccon = ccon
  | .getstatus dwMilliseconds =>
    w.cells.cmd = .getstatus ∧ w.cells.dwMilliseconds = dwMilliseconds

/-- What is to be done, or nothing at all for the first handshake. -/
def Task (k : Kernel Os D N P) (w : World Os P) (task : DirectCall Os D P (Option ErrorCode)) :
    Prop :=
  (w.cells.cmd = .init ∧ task = .ret none) ∨ ∃ request, Asked w request ∧ task = serve k request

/-- Where the I/O thread is with a task, and how far the program has come that is followed. It goes
on with `next` when the task is done. -/
inductive Serving (task : DirectCall Os D P (Option ErrorCode))
    (next : Option ErrorCode → DirectCall Os D P α) (w : World Os P) : Prop
  | asked (hplace : w.start = true ∧ w.iocpThread = some .waiting ∨
        w.start = false ∧ w.iocpThread = some .beginning)
      (hdone : w.done = false) (htask : Task k w task) (hat : At k q v (task >>= next) w)
  | switching (hplace : w.iocpThread = some .switching) (hstart : w.start = false)
      (hdone : w.done = false) (hcells : w.cells.success = true ∧ w.cells.lastError = 0)
      (htask : Task k w task) (hat : At k q v (task >>= next) w)
  | getting (dwMilliseconds : ℕ) (hplace : w.iocpThread = some .getting) (hstart : w.start = false)
      (hdone : w.done = false) (hcells : w.cells.lastError = 0)
      (htime : w.cells.dwMilliseconds = dwMilliseconds)
      (hat : At k q v ((Prog.lift (getQueued k dwMilliseconds) >>= fun error =>
        Prog.lift (notify k error)) >>= next) w)
  | notifying (error : Option ErrorCode) (hplace : w.iocpThread = some (.notifying error))
      (hstart : w.start = false) (hdone : w.done = false) (hcells : w.cells.lastError = 0)
      (herror : ∀ e, error = some e → w.threadError = e)
      (hat : At k q v (Prog.lift (notify k error) >>= next) w)
  | checking (error : Option ErrorCode) (hplace : w.iocpThread = some .checking)
      (hstart : w.start = false) (hdone : w.done = false)
      (hcells : w.cells.success = error.isNone ∧ w.cells.lastError = 0)
      (herror : ∀ e, error = some e → w.threadError = e) (hat : At k q v (next error) w)
  | served (error : Option ErrorCode)
      (hplace : (w.iocpThread = some .idling ∨ w.iocpThread = some .signalling) ∧ w.done = false ∨
        w.iocpThread = some .waiting ∧ w.done = true) (hstart : w.start = false)
      (hcells : w.cells.success = error.isNone ∧ w.cells.lastError = error.getD 0)
      (hat : At k q v (next error) w)

variable {k q v}

/-- Something else happens. -/
theorem At.move {rest : DirectCall Os D P α} {w : World Os P} {n : N} {os : Os}
    (hat : At k q v rest w) (hmove : k.move w.os n = some os) :
    At k q v rest { w with os := os } :=
  Reaches.move hat (m := n) (by simp [Direct.move, World.direct, hmove])

/-- One action of the program that is followed. -/
theorem At.step {ρ : Type} {a : DirectAct Os D P ρ}
    {next : ρ → DirectCall Os D P α} {w w' : World Os P} {c : Choice D} {r : ρ}
    (hat : At k q v (.act a next) w) (hact : a w.direct c = some (r, w'.direct)) :
    At k q v (next r) w' := Reaches.act hat hact

/-- What the program that is followed cannot see does not matter for it. -/
theorem At.congr {rest : DirectCall Os D P α} {w w' : World Os P} (hat : At k q v rest w)
    (h : w'.direct = w.direct) : At k q v rest w' := by
  unfold At
  rwa [h]

/-- The system call that is followed. -/
theorem At.onOs {ρ : Type} {a : SysCall Os D ρ} {next : ρ → DirectCall Os D P α} {w w' : World Os P}
    {d : D} {r : ρ} {os : Os} (hat : At k q v (Prog.lift (onOs a) >>= next) w)
    (hact : a w.os d = some (r, os)) (hw : w'.direct = { w.direct with os := os }) :
    At k q v (next r) w' := by
  refine hat.step (c := .os d) ?_
  rw [hw]
  change (a w.os d).map _ = _
  rw [hact]
  rfl

/-- What was found is read. -/
theorem At.overlapped {f : Option P → DirectCall Os D P α} {w w' : World Os P}
    (hat : At k q v (Prog.lift getOverlapped >>= f) w) (hw : w'.direct = w.direct) :
    At k q v (f w.cells.overlapped) w' := by
  refine At.step (c := .ok) (r := w.cells.overlapped) hat ?_
  rw [hw]
  rfl

/-- A task of one system call is over. -/
theorem Serving.finished {task : DirectCall Os D P (Option ErrorCode)}
    {next : Option ErrorCode → DirectCall Os D P α} {w w' : World Os P} {d : D}
    {a : SysCall Os D (Option ErrorCode)} (hplace : w.iocpThread = some .switching)
    (hstart : w.start = false) (hdone : w.done = false) (herror : w.cells.lastError = 0)
    (hat : At k q v (Prog.lift (Thread.onOs a) >>= next) w)
    (hstep : (a w.os d).map (fun (error, os) => ({ w with os := os }.fail error).finish error) =
      some w') :
    Serving k q v task next w' ∧ w'.race = w.race := by
  obtain ⟨⟨error, os⟩, hact, rfl⟩ := Option.map_eq_some_iff.mp hstep
  refine ⟨.checking error rfl hstart hdone ⟨rfl, herror⟩ ?_ (hat.onOs hact ?_), rfl⟩
  · rintro e rfl
    rfl
  · simp [World.direct, World.finish, World.fail, hplace]

/-- Each step of the I/O thread is one that is followed. -/
theorem Serving.callbackStep {task : DirectCall Os D P (Option ErrorCode)}
    {next : Option ErrorCode → DirectCall Os D P α} {w w' : World Os P} {d : D}
    (hw : Serving k q v task next w) (hstep : callbackStep k w d = some w') :
    Serving k q v task next w' ∧ w'.race = w.race := by
  cases hw with
  | asked hplace hdone htask hat =>
    rcases hplace with ⟨hstart, hplace⟩ | ⟨hstart, hplace⟩
    · simp only [Thread.callbackStep, hplace, hstart, if_true, Option.some.injEq] at hstep
      obtain rfl := hstep
      exact ⟨.asked (Or.inr ⟨rfl, rfl⟩) hdone htask (hat.congr (by simp [World.direct, hplace])), rfl⟩
    · simp only [Thread.callbackStep, hplace, Option.some.injEq] at hstep
      obtain rfl := hstep
      exact ⟨.switching rfl hstart hdone ⟨rfl, rfl⟩ htask
        (hat.congr (by simp [World.direct, hplace])), rfl⟩
  | switching hplace hstart hdone hcells htask hat =>
    simp only [Thread.callbackStep, hplace] at hstep
    rcases htask with ⟨hcmd, rfl⟩ | ⟨request, hasked, rfl⟩
    · simp only [hcmd, Option.some.injEq] at hstep
      obtain rfl := hstep
      exact ⟨.checking none rfl hstart hdone hcells nofun
        (hat.congr (by simp [World.direct, hplace])), rfl⟩
    · cases request with
      | readfile data =>
        obtain ⟨hcmd, rfl⟩ := hasked
        simp only [hcmd] at hstep
        exact Serving.finished hplace hstart hdone hcells.2 hat hstep
      | connectpipe ccon =>
        obtain ⟨hcmd, rfl⟩ := hasked
        simp only [hcmd] at hstep
        exact Serving.finished hplace hstart hdone hcells.2 hat hstep
      | getstatus dwMilliseconds =>
        obtain ⟨hcmd, htime⟩ := hasked
        simp only [hcmd] at hstep
        obtain ⟨⟨error, os⟩, hact, hw'⟩ := Option.map_eq_some_iff.mp hstep
        have hafter : ∀ w'' : World Os P, w''.direct = { w.direct with os := os } →
            At k q v ((if error.isSome then .ret error else
              Prog.lift (getQueued k dwMilliseconds) >>= fun error =>
                Prog.lift (notify k error)) >>= next) w'' :=
          fun w'' hw'' => hat.onOs hact hw''
        cases error with
        | some e =>
          simp only [Option.isSome_some, if_true] at hw'
          obtain rfl := hw'
          refine ⟨.checking (some e) rfl hstart hdone ⟨rfl, hcells.2⟩ ?_ (hafter _ ?_), rfl⟩
          · rintro e' h
            exact Option.some.inj h
          · simp [World.direct, World.finish, World.fail, hplace]
        | none =>
          simp only [Option.isSome_none, Bool.false_eq_true, if_false] at hw'
          obtain rfl := hw'
          exact ⟨.getting dwMilliseconds rfl hstart hdone hcells.2 htime
            (hafter _ (by simp [World.direct, hplace])), rfl⟩
  | getting dwMilliseconds hplace hstart hdone hcells htime hat =>
    simp only [Thread.callbackStep, hplace, htime] at hstep
    obtain ⟨⟨⟨error, packet⟩, os⟩, hact, rfl⟩ := Option.map_eq_some_iff.mp hstep
    refine ⟨.notifying error rfl hstart hdone hcells ?_ (At.step (c := .os d) hat ?_), rfl⟩
    · rintro e rfl
      rfl
    · change (k.getQueuedCompletionStatus dwMilliseconds w.os d).map _ = _
      rw [hact]
      simp [World.direct, World.fail, hplace]
  | notifying error hplace hstart hdone hcells herror hat =>
    simp only [Thread.callbackStep, hplace] at hstep
    split_ifs at hstep with hselect
    · obtain ⟨⟨error', os⟩, hact, rfl⟩ := Option.map_eq_some_iff.mp hstep
      refine ⟨.checking (error.map fun e => error'.getD e) rfl hstart hdone
        ⟨by simp [World.finish], hcells⟩ ?_ (At.step (c := .os d) hat ?_), rfl⟩
      · intro e he
        obtain ⟨e', rfl, rfl⟩ := Option.map_eq_some_iff.mp he
        exact congrArg error'.getD (herror e' rfl)
      · have hselect' : w.direct.select = true := hselect
        simp only [notify, hselect', if_true]
        change (k.send w.os d).map _ = _
        rw [hact]
        simp [World.direct, World.fail, World.finish, hplace, hselect]
    · obtain rfl := Option.some.inj hstep
      refine ⟨.checking error rfl hstart hdone ⟨rfl, hcells⟩ herror
        (At.step (c := .os d) hat ?_), rfl⟩
      simp [notify, World.direct, World.finish, hplace, hselect]
  | checking error hplace hstart hdone hcells herror hat =>
    simp only [Thread.callbackStep, hplace, Option.some.injEq] at hstep
    obtain rfl := hstep
    refine ⟨.served error (Or.inl ⟨Or.inl rfl, hdone⟩) hstart ?_
      (hat.congr ?_), rfl⟩
    · cases error with
      | none => simp [hcells]
      | some e => simp [hcells, herror e rfl]
    · simp only [World.direct, hplace]
      split_ifs <;> rfl
  | served error hplace hstart hcells hat =>
    rcases hplace with ⟨hplace | hplace, hdone⟩ | ⟨hplace, hdone⟩
    · simp only [Thread.callbackStep, hplace, Option.some.injEq] at hstep
      obtain rfl := hstep
      exact ⟨.served error (Or.inl ⟨Or.inr rfl, hdone⟩) hstart hcells
        (hat.congr (by simp [World.direct, hplace])), rfl⟩
    · simp only [Thread.callbackStep, hplace, Option.some.injEq] at hstep
      obtain rfl := hstep
      exact ⟨.served error (Or.inr ⟨rfl, rfl⟩) hstart hcells
        (hat.congr (by simp [World.direct, hplace])), rfl⟩
    · simp [Thread.callbackStep, hplace, hstart] at hstep

/-- Somebody can go on while a command is served. -/
theorem Serving.goes {task : DirectCall Os D P (Option ErrorCode)}
    {next : Option ErrorCode → DirectCall Os D P α} {w : World Os P}
    (hw : Serving k q v task next w) : w.Goes := by
  intro _
  cases hw with
  | asked hplace =>
    rcases hplace with ⟨hstart, hplace⟩ | ⟨-, hplace⟩
    · exact Or.inr ⟨.waiting, hplace, fun _ => hstart⟩
    · exact Or.inr ⟨.beginning, hplace, nofun⟩
  | served _ hplace =>
    rcases hplace with ⟨hplace | hplace, -⟩ | ⟨-, hdone⟩
    · exact Or.inr ⟨.idling, hplace, nofun⟩
    · exact Or.inr ⟨.signalling, hplace, nofun⟩
    · exact Or.inl hdone
  | switching hplace => exact Or.inr ⟨.switching, hplace, nofun⟩
  | getting _ hplace => exact Or.inr ⟨.getting, hplace, nofun⟩
  | notifying error hplace => exact Or.inr ⟨.notifying error, hplace, nofun⟩
  | checking _ hplace => exact Or.inr ⟨.checking, hplace, nofun⟩

/-- While a command is served, some of the program that is followed is left. -/
theorem Serving.at {task : DirectCall Os D P (Option ErrorCode)}
    {next : Option ErrorCode → DirectCall Os D P α} {w : World Os P}
    (hw : Serving k q v task next w) : ∃ rest, At k q v rest w := by
  cases hw with
  | asked _ _ _ hat => exact ⟨_, hat⟩
  | switching _ _ _ _ _ hat => exact ⟨_, hat⟩
  | getting _ _ _ _ _ _ hat => exact ⟨_, hat⟩
  | notifying _ _ _ _ _ _ hat => exact ⟨_, hat⟩
  | checking _ _ _ _ _ _ hat => exact ⟨_, hat⟩
  | served _ _ _ _ hat => exact ⟨_, hat⟩

/-- Something else happens while a command is served. -/
theorem Serving.move {task : DirectCall Os D P (Option ErrorCode)}
    {next : Option ErrorCode → DirectCall Os D P α} {w : World Os P} {n : N} {os : Os}
    (hw : Serving k q v task next w) (hmove : k.move w.os n = some os) :
    Serving k q v task next { w with os := os } := by
  cases hw with
  | asked hplace hdone htask hat => exact .asked hplace hdone htask (hat.move hmove)
  | switching hplace hstart hdone hcells htask hat =>
    exact .switching hplace hstart hdone hcells htask (hat.move hmove)
  | getting dwMilliseconds hplace hstart hdone hcells htime hat =>
    exact .getting dwMilliseconds hplace hstart hdone hcells htime (hat.move hmove)
  | notifying error hplace hstart hdone hcells herror hat =>
    exact .notifying error hplace hstart hdone hcells herror (hat.move hmove)
  | checking error hplace hstart hdone hcells herror hat =>
    exact .checking error hplace hstart hdone hcells herror (hat.move hmove)
  | served error hplace hstart hcells hat =>
    exact .served error hplace hstart hcells (hat.move hmove)

/-- While a command is served, the state stays safe. -/
theorem kept_serving (task : DirectCall Os D P (Option ErrorCode))
    (next : Option ErrorCode → DirectCall Os D P α) :
    Kept (World.move k) (Safe k q v) fun w => w.race = false ∧ Serving k q v task next w where
  move w m w' hw hmove := by
    cases m with
    | callback d =>
      obtain ⟨hserving, hrace⟩ := hw.2.callbackStep hmove
      exact ⟨hrace.trans hw.1, hserving⟩
    | os n =>
      obtain ⟨os, hos, rfl⟩ := Option.map_eq_some_iff.mp hmove
      exact ⟨hw.1, hw.2.move hos⟩
  safe w hw := ⟨⟨hw.1, hw.2.goes⟩, hw.2.at⟩

end Serving

section Main

variable {k : Kernel Os D N P} {q : DirectCall Os D P α} {v : Direct Os P}

/-- Between two calls, with some facts about the global variables. -/
def Resting (k : Kernel Os D N P) (q : DirectCall Os D P α) (v : Direct Os P)
    (place : Option Place) (φ : Cells P → Prop) (rest : DirectCall Os D P α) (w : World Os P) :
    Prop := Idle place w ∧ φ w.cells ∧ At k q v rest w

variable {place : Option Place}

/-- What happens between two calls happens in the program that is followed as well. -/
theorem kept_resting (φ : Cells P → Prop) (rest : DirectCall Os D P α) :
    Kept (World.move k) (Safe k q v) (Resting k q v place φ rest) where
  move w m w' hw hmove := by
    cases m with
    | callback d =>
      rw [World.move, hw.1.callbackStep] at hmove
      cases hmove
    | os n =>
      obtain ⟨os, hos, rfl⟩ := Option.map_eq_some_iff.mp hmove
      exact ⟨⟨hw.1.start, hw.1.done, hw.1.thread, hw.1.free, hw.1.waiting, hw.1.race⟩, hw.2.1,
        hw.2.2.move hos⟩
  safe w hw := ⟨⟨hw.1.race, fun hwaiting => by simp [hw.1.waiting] at hwaiting⟩, rest, hw.2.2⟩

/-- The main thread uses the global variables. -/
theorem access_ensures {ρ β : Type} {φ ψ : Cells P → Prop} {R : ρ → Prop}
    {rest : DirectCall Os D P α} {f : Cells P → ρ × Cells P} {g : ρ → Call Os D P β}
    {Q : Except String β → World Os P → Prop}
    (hf : ∀ cells, φ cells → R (f cells).1 ∧ ψ (f cells).2 ∧
      (f cells).2.select = cells.select ∧ (f cells).2.overlapped = cells.overlapped)
    (hg : ∀ r, R r → Ensures (World.move k) (Safe k q v) (Resting k q v place ψ rest) (g r) Q) :
    Ensures (World.move k) (Safe k q v) (Resting k q v place φ rest)
      (Prog.lift (access f) >>= g) Q := by
  refine .step (kept_resting φ rest) (fun r w => R r ∧ Resting k q v place ψ rest w)
    (fun w c r w' hw hact => ?_) fun r => .of_fact (hg r)
  obtain ⟨rfl, rfl⟩ := Prod.mk.inj (Option.some.inj hact)
  obtain ⟨hR, hψ, hselect, hoverlapped⟩ := hf w.cells hw.2.1
  refine ⟨hR, ⟨hw.1.start, hw.1.done, hw.1.thread, hw.1.free, hw.1.waiting, ?_⟩, hψ, hw.2.2.congr ?_⟩
  · simp [hw.1.race, hw.1.busy]
  · simp [World.direct, hselect, hoverlapped]

/-- The main thread stores global variables, which the program that is followed does not have. -/
theorem store_ensures {β : Type} {φ ψ : Cells P → Prop} {rest : DirectCall Os D P α}
    {f : Cells P → Cells P} {g : Unit → Call Os D P β} {Q : Except String β → World Os P → Prop}
    (hf : ∀ cells, φ cells → ψ (f cells) ∧ (f cells).select = cells.select ∧
      (f cells).overlapped = cells.overlapped)
    (hg : Ensures (World.move k) (Safe k q v) (Resting k q v place ψ rest) (g ()) Q) :
    Ensures (World.move k) (Safe k q v) (Resting k q v place φ rest)
      (Prog.lift (store f) >>= g) Q :=
  access_ensures (R := fun _ => True) (fun cells hφ => ⟨trivial, hf cells hφ⟩) fun _ _ => hg

/-- The result of a task. -/
def Stored (error : Option ErrorCode) (cells : Cells P) : Prop :=
  cells.success = error.isNone ∧ cells.lastError = error.getD 0

/-- While a command is served, the main thread starts to wait for its end. -/
theorem Serving.enterWait {task : DirectCall Os D P (Option ErrorCode)}
    {next : Option ErrorCode → DirectCall Os D P α} {w w' : World Os P} {c : Choice D}
    (hw : Serving k q v task next w) (hact : enterWait w c = some ((), w')) :
    Serving k q v task next w' ∧ w'.race = w.race := by
  obtain ⟨-, rfl⟩ := Prod.mk.inj (Option.some.inj hact)
  refine ⟨?_, rfl⟩
  cases hw with
  | asked hplace hdone htask hat => exact .asked hplace hdone htask hat
  | switching hplace hstart hdone hcells htask hat =>
    exact .switching hplace hstart hdone hcells htask hat
  | getting dwMilliseconds hplace hstart hdone hcells htime hat =>
    exact .getting dwMilliseconds hplace hstart hdone hcells htime hat
  | notifying error hplace hstart hdone hcells herror hat =>
    exact .notifying error hplace hstart hdone hcells herror hat
  | checking error hplace hstart hdone hcells herror hat =>
    exact .checking error hplace hstart hdone hcells herror hat
  | served error hplace hstart hcells hat => exact .served error hplace hstart hcells hat

/-- When the main thread stops waiting, the command is done and its result is stored. -/
theorem Serving.leaveWait {task : DirectCall Os D P (Option ErrorCode)}
    {next : Option ErrorCode → DirectCall Os D P α} {w w' : World Os P} {c : Choice D}
    (hw : Serving k q v task next w) (hrace : w.race = false)
    (hact : leaveWait w c = some ((), w')) :
    ∃ error, Resting k q v (some .waiting) (Stored error) (next error) w' := by
  unfold Thread.leaveWait at hact
  split_ifs at hact with hdone
  obtain ⟨-, rfl⟩ := Prod.mk.inj (Option.some.inj hact)
  cases hw with
  | served error hplace hstart hcells hat =>
    rcases hplace with ⟨-, hnot⟩ | ⟨hplace, -⟩
    · rw [hdone] at hnot
      cases hnot
    · exact ⟨error, ⟨hstart, rfl, hplace, Or.inr rfl, rfl, hrace⟩, hcells, hat⟩
  | asked _ hnot => simp [hdone] at hnot
  | switching _ _ hnot => simp [hdone] at hnot
  | getting _ _ _ hnot => simp [hdone] at hnot
  | notifying _ _ _ hnot => simp [hdone] at hnot
  | checking _ _ _ hnot => simp [hdone] at hnot

/-- One round of the I/O thread: a task is done, and its result is stored. -/
theorem signalAndWait_ensures {φ : Cells P → Prop} (task : DirectCall Os D P (Option ErrorCode))
    (next : Option ErrorCode → DirectCall Os D P α)
    (htask : ∀ w : World Os P, φ w.cells → Task k w task) :
    Ensures (World.move k) (Safe k q v) (Resting k q v (some .waiting) φ (task >>= next))
      (signalAndWait : Call Os D P Unit) (fun r w => r = .ok () ∧ ∃ error,
        Resting k q v (some .waiting) (Stored error) (next error) w) := by
  have hserving := kept_serving (k := k) (q := q) (v := v) task next
  -- `SetEvent()`: the task is asked for
  refine .step (kept_resting φ _) (fun _ w => w.race = false ∧ Serving k q v task next w)
    (fun w c r w' hw hact => ?_) fun _ => ?_
  · obtain ⟨-, rfl⟩ := Prod.mk.inj (Option.some.inj hact)
    exact ⟨hw.1.race, .asked (Or.inl ⟨rfl, hw.1.thread⟩) hw.1.done (htask w hw.2.1) hw.2.2⟩
  -- `WaitForSingleObject()`: it is served meanwhile, and done in the end
  refine .step hserving (fun _ w => w.race = false ∧ Serving k q v task next w)
    (fun w c r w' hw hact => ?_) fun _ => ?_
  · obtain ⟨hnext, hrace⟩ := hw.2.enterWait hact
    exact ⟨hrace.trans hw.1, hnext⟩
  refine .act hserving
    (fun _ w => ∃ error, Resting k q v (some .waiting) (Stored error) (next error) w)
    (fun w c r w' hw hact => hw.2.leaveWait hw.1 hact) fun _ => ?_
  exact .of_exists fun error => .ret (kept_resting _ _) fun w hw => ⟨rfl, error, hw⟩

/-- The I/O thread is there afterwards, unless it cannot be started. -/
def StartEnds (k : Kernel Os D N P) (q : DirectCall Os D P α) (v : Direct Os P)
    (next : Unit → DirectCall Os D P α) (r : Except String Unit) (w : World Os P) : Prop :=
  (r = .ok () ∧ Resting k q v (some .waiting) (fun _ => True) (next ()) w) ∨
    ∃ e, r = .error e ∧ Resting k q v none (fun _ => True) (.throw e) w

/-- A start that fails throws in both programs. -/
theorem startEnds_throw {next : Unit → DirectCall Os D P α} (e : String) :
    Ensures (World.move k) (Safe k q v) (Resting k q v none (fun _ => True) (.throw e))
      (.throw e : Call Os D P Unit) (StartEnds k q v next) :=
  .throw (kept_resting _ _) fun _ hw => Or.inr ⟨e, rfl, hw⟩

/-- The task of the first handshake. -/
abbrev noTask : DirectCall Os D P (Option ErrorCode) := .ret none

/-- The first handshake. -/
theorem startWithEvents_ensures (next : Unit → DirectCall Os D P α) :
    Ensures (World.move k) (Safe k q v)
      (Resting k q v none (fun cells => cells.cmd = .init) (startSecond >>= next))
      (do if (← Prog.lift createThread) then signalAndWait else .throw "Cannot start I/O thread" :
        Call Os D P Unit) (StartEnds k q v next) := by
  refine .step (kept_resting _ _) (fun ok w => if ok then
    Resting k q v (some .waiting) (fun cells => cells.cmd = .init) (noTask >>= fun _ => next ()) w
      else Resting k q v none (fun _ => True) (.throw "Cannot start I/O thread") w)
    (fun w c ok w' hw hact => ?_) fun ok => ?_
  · obtain ⟨hidle, hcmd, hat⟩ := hw
    cases c with
    | ok =>
      obtain ⟨rfl, rfl⟩ := Prod.mk.inj (Option.some.inj hact)
      refine ⟨⟨hidle.start, hidle.done, rfl, Or.inr rfl, hidle.waiting, hidle.race⟩, hcmd, ?_⟩
      exact At.step (c := .ok) (r := true) hat rfl
    | fail =>
      obtain ⟨rfl, rfl⟩ := Prod.mk.inj (Option.some.inj hact)
      exact ⟨hidle, trivial, At.step (c := .fail) (r := false) hat rfl⟩
    | os d => cases hact
  · cases ok with
    | false => exact startEnds_throw _
    | true =>
      refine (signalAndWait_ensures (φ := fun cells => cells.cmd = .init) noTask (fun _ => next ())
        fun w hcmd => Or.inl ⟨hcmd, rfl⟩).conseq (fun _ hw => hw) fun r w hw => ?_
      obtain ⟨rfl, error, hidle, -, hat⟩ := hw
      exact Or.inl ⟨rfl, hidle, trivial, hat⟩

/-- `processx__start_thread()` follows its counterpart, whether there is a thread or not. -/
theorem startThread_ensures (next : Unit → DirectCall Os D P α) :
    Ensures (World.move k) (Safe k q v)
      (Resting k q v place (fun _ => True) (startDirect >>= next)) (startThread : Call Os D P Unit)
      (StartEnds k q v next) := by
  refine .step (kept_resting _ _) (fun exists_ w => if exists_ then
    Resting k q v (some .waiting) (fun _ => True) (next ()) w
      else Resting k q v none (fun _ => True) (startFirst >>= next) w)
    (fun w c exists_ w' hw hact => ?_) fun exists_ => ?_
  · obtain ⟨rfl, rfl⟩ := Prod.mk.inj (Option.some.inj hact)
    obtain ⟨hidle, -, hat⟩ := hw
    rcases hidle.free with rfl | rfl
    · rw [hidle.thread]
      refine ⟨hidle, trivial, At.step (c := .ok) (r := false) hat ?_⟩
      simp [isStarted, World.direct, hidle.thread]
    · rw [hidle.thread]
      refine ⟨hidle, trivial, At.step (c := .ok) (r := true) hat ?_⟩
      simp [isStarted, World.direct, hidle.thread]
  · cases exists_ with
    | true =>
      exact Ensures.conseq (R := Resting k q v (some .waiting) (fun _ => True) (next ()))
        (.ret (kept_resting _ _) fun w hw => Or.inl ⟨rfl, hw⟩) (fun _ hw => hw) fun _ _ hq => hq
    | false =>
      refine .step (kept_resting (φ := fun _ => True) _) (fun ok w => if ok then
        Resting k q v none (fun _ => True) (startSecond >>= next) w
          else Resting k q v none (fun _ => True) (.throw "Cannot create I/O events") w)
        (fun w c ok w' hw hact => ?_) fun ok => ?_
      · obtain ⟨hidle, -, hat⟩ := hw
        cases c with
        | ok =>
          obtain ⟨rfl, rfl⟩ := Prod.mk.inj (Option.some.inj hact)
          exact ⟨⟨rfl, rfl, hidle.thread, Or.inl rfl, hidle.waiting, hidle.race⟩, trivial,
            At.step (c := .ok) (r := true) hat rfl⟩
        | fail =>
          obtain ⟨rfl, rfl⟩ := Prod.mk.inj (Option.some.inj hact)
          exact ⟨hidle, trivial, At.step (c := .fail) (r := false) hat rfl⟩
        | os d => cases hact
      · cases ok with
        | false => exact startEnds_throw _
        | true =>
          refine .conseq (R := Resting k q v none (fun _ => True) (startSecond >>= next)) ?_
            (fun _ hw => hw) fun _ _ hq => hq
          exact store_ensures (ψ := fun cells => cells.cmd = .init)
            (fun cells _ => ⟨rfl, rfl, rfl⟩) (startWithEvents_ensures next)

/-- What a call leaves: its result, or the error of its start. -/
def CallEnds (k : Kernel Os D N P) (q : DirectCall Os D P α) (v : Direct Os P)
    (next : Option ErrorCode → DirectCall Os D P α) (r : Except String Bool) (w : World Os P) :
    Prop :=
  (∃ error, r = .ok error.isNone ∧ Resting k q v (some .waiting) (Stored error) (next error) w) ∨
    ∃ e, r = .error e ∧ Resting k q v none (fun _ => True) (.throw e) w

/-- The part of a call behind `processx__start_thread()`. -/
theorem served_ensures {φ : Cells P → Prop} (request : Request)
    (next : Option ErrorCode → DirectCall Os D P α)
    (htask : ∀ w : World Os P, φ w.cells → Asked w request) :
    Ensures (World.move k) (Safe k q v)
      (Resting k q v (some .waiting) φ (serve k request >>= next))
      (signalAndWait >>= fun _ => Prog.lift readSuccess : Call Os D P Bool)
      (CallEnds k q v next) := by
  refine .bind (signalAndWait_ensures (serve k request) next fun w hφ =>
    Or.inr ⟨request, htask w hφ, rfl⟩) (fun _ => ?_) ?_
  · refine .conseq (.of_exists fun error => ?_) (fun w hw => hw.2) fun _ _ hq => hq
    refine access_ensures (R := fun ok => ok = error.isNone) (ψ := Stored error)
      (g := fun ok => .ret ok) (fun cells hcells => ⟨hcells.1, hcells, rfl, rfl⟩) fun ok hok => ?_
    exact .ret (kept_resting _ _) fun w hw => Or.inl ⟨error, congrArg Except.ok hok, hw⟩
  · rintro e w ⟨heq, -⟩
    cases heq

/-- A call through the I/O thread follows the direct call. -/
theorem threadCall_ensures (request : Request) (next : Option ErrorCode → DirectCall Os D P α) :
    Ensures (World.move k) (Safe k q v)
      (Resting k q v place (fun _ => True) (startDirect >>= fun _ => serve k request >>= next))
      (threadCall request : Call Os D P Bool) (CallEnds k q v next) := by
  have hstart : ∀ (body : Call Os D P Bool),
      Ensures (World.move k) (Safe k q v)
        (Resting k q v (some .waiting) (fun _ => True) (serve k request >>= next)) body
        (CallEnds k q v next) →
      Ensures (World.move k) (Safe k q v)
        (Resting k q v place (fun _ => True) (startDirect >>= fun _ => serve k request >>= next))
        (startThread >>= fun _ => body) (CallEnds k q v next) := by
    intro body hbody
    refine .bind (startThread_ensures fun _ => serve k request >>= next) (fun _ => ?_) ?_
    · refine hbody.conseq (fun w hw => ?_) fun _ _ hq => hq
      rcases hw with ⟨-, hw⟩ | ⟨e, heq, -⟩
      · exact hw
      · cases heq
    · rintro e w (⟨heq, -⟩ | ⟨e', heq, hw⟩)
      · cases heq
      · exact Or.inr ⟨e', congrArg Except.error (Except.error.inj heq), hw⟩
  cases request with
  | readfile data =>
    refine hstart _ (store_ensures (ψ := fun cells => cells.cmd = .readfile)
      (fun cells _ => ⟨rfl, rfl, rfl⟩) (store_ensures (ψ := fun cells =>
        cells.cmd = .readfile ∧ cells.readfileData = data)
        (fun cells hcmd => ⟨⟨hcmd, rfl⟩, rfl, rfl⟩) ?_))
    exact served_ensures (.readfile data) next fun w hw => hw
  | connectpipe ccon =>
    refine hstart _ (store_ensures (ψ := fun cells => cells.cmd = .connectpipe)
      (fun cells _ => ⟨rfl, rfl, rfl⟩) (store_ensures (ψ := fun cells =>
        cells.cmd = .connectpipe ∧ cells.readfileData.ccon = ccon)
        (fun cells hcmd => ⟨⟨hcmd, rfl⟩, rfl, rfl⟩) ?_))
    exact served_ensures (.connectpipe ccon) next fun w hw => hw
  | getstatus dwMilliseconds =>
    refine hstart _ (store_ensures (ψ := fun cells => cells.cmd = .getstatus)
      (fun cells _ => ⟨rfl, rfl, rfl⟩) (store_ensures (ψ := fun cells =>
        cells.cmd = .getstatus ∧ cells.dwMilliseconds = dwMilliseconds)
        (fun cells hcmd => ⟨⟨hcmd, rfl⟩, rfl, rfl⟩) ?_))
    exact served_ensures (.getstatus dwMilliseconds) next fun w hw => hw

/-- Between two calls of a program, and at its end. -/
def Between (k : Kernel Os D N P) (q : DirectCall Os D P α) (v : Direct Os P)
    (rest : DirectCall Os D P α) (w : World Os P) : Prop :=
  ∃ place, Resting k q v place (fun _ => True) rest w

/-- What happens between two calls happens in both programs. -/
theorem kept_between (rest : DirectCall Os D P α) :
    Kept (World.move k) (Safe k q v) (Between k q v rest) where
  move w m w' hw hmove := by
    obtain ⟨place, hplace⟩ := hw
    exact ⟨place, (kept_resting _ rest).move w m w' hplace hmove⟩
  safe w hw := by
    obtain ⟨place, hplace⟩ := hw
    exact (kept_resting _ rest).safe w hplace

/-- The error code of a call. -/
theorem errorOf_ensures {error : Option ErrorCode} {rest : DirectCall Os D P α} :
    Ensures (World.move k) (Safe k q v) (Resting k q v (some .waiting) (Stored error) rest)
      (errorOf error.isNone : Call Os D P ErrorCode)
      (fun r w => r = .ok (error.getD 0) ∧
        Resting k q v (some .waiting) (fun _ => True) rest w) := by
  cases error with
  | none => exact .ret (kept_resting _ _) fun w hw => ⟨rfl, hw.1, trivial, hw.2.2⟩
  | some e =>
    refine access_ensures (R := fun e' => e' = e) (ψ := fun _ => True) (g := fun e' => .ret e')
      (fun cells hcells => ⟨hcells.2, trivial, rfl, rfl⟩) fun e' he => ?_
    exact .ret (kept_resting _ _) fun w hw => ⟨congrArg Except.ok he, hw⟩

/-- What was found by a call. -/
theorem readOverlapped_ensures {β : Type} {next : Option P → DirectCall Os D P α}
    {g : Option P → Call Os D P β} {Q : Except String β → World Os P → Prop}
    (hg : ∀ overlapped,
      Ensures (World.move k) (Safe k q v) (Between k q v (next overlapped)) (g overlapped) Q) :
    Ensures (World.move k) (Safe k q v)
      (Resting k q v (some .waiting) (fun _ => True) (Prog.lift getOverlapped >>= next))
      (Prog.lift readOverlapped >>= g) Q := by
  refine .step (kept_resting _ _) (fun overlapped w => Between k q v (next overlapped) w)
    (fun w c r w' hw hact => ?_) fun overlapped => hg _
  obtain ⟨rfl, rfl⟩ := Prod.mk.inj (Option.some.inj hact)
  obtain ⟨hidle, -, hat⟩ := hw
  refine ⟨some .waiting, ⟨hidle.start, hidle.done, hidle.thread, hidle.free, hidle.waiting, ?_⟩,
    trivial, hat.overlapped rfl⟩
  simp [hidle.race, hidle.busy]

/-- Each part of a program with two threads follows the same part with direct calls. -/
theorem client_ensures (client : Client Os D P α) :
    Ensures (World.move k) (Safe k q v) (Between k q v (client.direct k)) client.threaded
      (fun r w => Between k q v (.ofExcept r) w) := by
  induction client with
  | ret a => exact .ret (kept_between _) fun w hw => hw
  | throw e => exact .throw (kept_between _) fun w hw => hw
  | spin => exact .spin (kept_between _)
  | main a next ih =>
    refine .step (kept_between _) (fun r w => Between k q v ((next r).direct k) w)
      (fun w c r w' hw hact => ?_) fun r => ih r
    obtain ⟨place, hidle, -, hat⟩ := hw
    cases c with
    | ok | fail => cases hact
    | os d =>
      obtain ⟨⟨r, os⟩, ha, heq⟩ := Option.map_eq_some_iff.mp hact
      obtain ⟨rfl, rfl⟩ := Prod.mk.inj heq
      refine ⟨place, ⟨hidle.start, hidle.done, hidle.thread, hidle.free, hidle.waiting, hidle.race⟩, trivial, ?_⟩
      exact hat.onOs ha rfl
  | setSelect b next ih =>
    refine .step (kept_between _) (fun _ w => Between k q v (next.direct k) w)
      (fun w c r w' hw hact => ?_) fun _ => ih
    obtain ⟨place, hidle, -, hat⟩ := hw
    obtain ⟨rfl, rfl⟩ := Prod.mk.inj (Option.some.inj hact)
    refine ⟨place, ⟨hidle.start, hidle.done, hidle.thread, hidle.free, hidle.waiting, ?_⟩, trivial,
      At.step (c := .ok) hat rfl⟩
    simp [hidle.race, hidle.busy]
  | clearOverlapped next ih =>
    refine .step (kept_between _) (fun _ w => Between k q v (next.direct k) w)
      (fun w c r w' hw hact => ?_) fun _ => ih
    obtain ⟨place, hidle, -, hat⟩ := hw
    obtain ⟨rfl, rfl⟩ := Prod.mk.inj (Option.some.inj hact)
    refine ⟨place, ⟨hidle.start, hidle.done, hidle.thread, hidle.free, hidle.waiting, ?_⟩, trivial,
      At.step (c := .ok) hat rfl⟩
    simp [hidle.race, hidle.busy]
  | call request next ih =>
    refine .of_exists fun place => ?_
    refine .bind (threadCall_ensures request fun error => Prog.lift getOverlapped >>= fun overlapped =>
      (next ⟨error.isNone, error.getD 0, overlapped⟩).direct k) (fun success => ?_) ?_
    · rintro w o w' (⟨error, heq, hw⟩ | ⟨e, heq, -⟩) hrun
      · obtain rfl := Except.ok.inj heq
        refine Ensures.bind errorOf_ensures (fun code => ?_) ?_ w o w' hw hrun
        · refine .conseq (.of_fact (φ := code = error.getD 0) ?_)
            (fun w hw => ⟨Except.ok.inj hw.1, hw.2⟩) fun _ _ hq => hq
          rintro rfl
          exact readOverlapped_ensures fun overlapped => ih _
        · rintro e w ⟨heq, -⟩
          cases heq
      · cases heq
    · rintro e w (⟨error, heq, -⟩ | ⟨e', heq, hw⟩)
      · cases heq
      · obtain rfl := Except.error.inj heq
        exact ⟨none, hw⟩

end Main

/-- Between two calls, whether there is an I/O thread or not. -/
def Quiet (w : World Os P) : Prop := ∃ place, Idle place w

/-- The program with the two threads follows the one with direct calls. -/
theorem client_follows (k : Kernel Os D N P) (client : Client Os D P α) :
    Follows (World.move k) (Direct.move k) World.direct Quiet client.threaded (client.direct k) := by
  refine follows_of_ensures fun v => ?_
  refine ((client_ensures client).weaken fun w hw => hw.2).conseq (fun w hw => ?_) fun r w hw => ?_
  · obtain ⟨⟨place, hidle⟩, rfl⟩ := hw
    exact ⟨place, hidle, trivial, .start⟩
  · obtain ⟨place, hidle, -, hat⟩ := hw
    exact ⟨⟨place, hidle⟩, hat⟩

/-- At no moment is there a race, and the threads do not wait for each other. -/
theorem client_safe (k : Kernel Os D N P) (client : Client Os D P α) :
    Ensures (World.move k) (fun w => w.race = false ∧ w.Goes) Quiet client.threaded
      (fun _ => Quiet) := by
  intro w o w' hw hrun
  refine ⟨?_, fun r hr => ((client_follows k client) w o w' hw hrun).2 (by simp [hr])⟩
  obtain ⟨place, hidle⟩ := hw
  exact (client_ensures client w o w' ⟨place, hidle, trivial, Reaches.start⟩ hrun).1.1

/-- Each read adds a packet, and none of them is there at once. -/
def pendingKernel : Kernel ℕ Unit Unit ℕ where
  readfile _ packets _ := some (some 997, packets + 1)
  connectpipe _ packets _ := some (none, packets)
  getDefaultIocp packets _ := some (none, packets)
  getQueuedCompletionStatus _ packets _ :=
    if 0 < packets then some ((none, some packets), packets - 1)
    else some ((some 258, none), packets)
  send packets _ := some (none, packets)
  move packets _ := some packets

/-- A read, and what it makes: the two error codes and the packet. -/
def readOnce : Client ℕ Unit ℕ (ErrorCode × ErrorCode × Option ℕ) :=
  .call (.readfile { ccon := 5 }) fun started => .call (.getstatus 200) fun found =>
    .ret (started.error, found.error, found.overlapped)

/-- Steps of the I/O thread. -/
def callbacks {D N C : Type} (n : ℕ) (d : D) : List (Cue (Move D N) C) :=
  List.replicate n (.move (.callback d))

/-- Actions of the main thread alone. -/
def mains {D N : Type} (n : ℕ) : List (Cue (Move D N) (Choice D)) := List.replicate n (.act .ok)

/-- **The I/O thread is transparent**: what a program does through it is what the program does with
direct calls, and in the end the thread waits for the next one. -/
theorem threaded_follows (k : Kernel Os D N P) (client : Client Os D P α) (w w' : World Os P)
    (o : Option (Except String α)) (hw : Quiet w)
    (hrun : Runs (World.move k) client.threaded w o w') :
    Runs (Direct.move k) (client.direct k) w.direct o w'.direct ∧ (o ≠ none → Quiet w') :=
  client_follows k client w o w' hw hrun

/-- A read through the I/O thread. -/
theorem threaded_follows_read : ∃ w', Runs (World.move pendingKernel) readOnce.threaded { os := 0 }
      (some (.ok (997, 0, some 1))) w' ∧
    Runs (Direct.move pendingKernel) (readOnce.direct pendingKernel) ⟨false, false, none, 0⟩
      (some (.ok (997, 0, some 1))) w'.direct := by
  obtain ⟨w', hrun, -⟩ : ∃ w', Runs (World.move pendingKernel) readOnce.threaded { os := 0 }
      (some (.ok (997, 0, some 1))) w' ∧ w'.os = 0 :=
    exists_run_of_drive (mains 6 ++ callbacks 6 () ++ mains 5 ++ callbacks 6 () ++ mains 9 ++
      callbacks 8 () ++ mains 3) World.os rfl
  have hquiet : Quiet ({ os := 0 } : World ℕ ℕ) := ⟨none, rfl, rfl, rfl, Or.inl rfl, rfl, rfl⟩
  exact ⟨w', hrun, (threaded_follows pendingKernel readOnce { os := 0 } w' _ hquiet hrun).1⟩

/-- The main thread never uses a global variable while the I/O thread might use it, and the threads
never wait for each other. -/
theorem threaded_safe (k : Kernel Os D N P) (client : Client Os D P α) (w w' : World Os P)
    (o : Option (Except String α)) (hw : Quiet w)
    (hrun : Runs (World.move k) client.threaded w o w') : w'.race = false ∧ w'.Goes :=
  (client_safe k client w o w' hw hrun).1

/-- The I/O thread is at work. -/
theorem threaded_safe_read : ∃ w', Runs (World.move pendingKernel) readOnce.threaded { os := 0 }
    none w' ∧ w'.waiting = true ∧ w'.race = false ∧ w'.Goes := by
  obtain ⟨w', hrun, hwaiting⟩ : ∃ w', Runs (World.move pendingKernel) readOnce.threaded { os := 0 }
      none w' ∧ w'.waiting = true :=
    exists_run_of_drive (mains 6 ++ callbacks 6 () ++ mains 5 ++ callbacks 2 ()) World.waiting rfl
  have hquiet : Quiet ({ os := 0 } : World ℕ ℕ) := ⟨none, rfl, rfl, rfl, Or.inl rfl, rfl, rfl⟩
  exact ⟨w', hrun, hwaiting, threaded_safe pendingKernel readOnce { os := 0 } w' none hquiet hrun⟩

end Processx.Win.Thread
