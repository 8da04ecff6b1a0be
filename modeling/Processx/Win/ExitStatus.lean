import Processx.Win.ProcessCalls

/-!
# The exit status of a process on Windows

A handle of the package says how its process has ended only if the process has ended so, and
`TerminateProcess()` succeeds at most once for it. If it fails, because the process has ended just
before, then the handle of the process is closed without its exit status: no call can find out
about the process again.
-/

namespace Processx.Win.Process

open Interruptible

/-- An action for one object: the handles of all others stay. -/
def Local (s : Sexp) {ρ : Type} (a : Act ρ) : Prop :=
  ∀ w c r w', a w c = some (r, w') →
    Later w w' ∧ ∀ s', s' ≠ s → w'.handles s' = w.handles s'

/-- An action that changes nothing. -/
theorem local_of_world {s : Sexp} {ρ : Type} {a : Act ρ}
    (h : ∀ w c r w', a w c = some (r, w') → w' = w) : Local s a := by
  intro w c r w' hact
  rw [h w c r w' hact]
  exact ⟨.refl w, fun _ _ => rfl⟩

variable {s : Sexp}

/-- Reading a handle leaves the others alone. -/
theorem local_readHandle (status : Sexp) : Local s (readHandle status) := by
  refine local_of_world fun w c r w' hact => ?_
  unfold readHandle at hact
  split_ifs at hact
  exact (Prod.mk.inj (Option.some.inj hact)).2.symm

/-- So does reading its exit status. -/
theorem local_readExitcode (status : Sexp) : Local s (readExitcode status) := by
  refine local_of_world fun w c r w' hact => ?_
  unfold readExitcode at hact
  split at hact
  · cases hact
  · exact (Prod.mk.inj (Option.some.inj hact)).2.symm

/-- So does asking for the code of a process. -/
theorem local_getExitCodeProcess (number : Option ℕ) : Local s (getExitCodeProcess number) :=
  local_of_world fun _ _ _ _ hact => (getExitCodeProcess_spec hact).1

/-- So does waiting for a process. -/
theorem local_waitForSingleObject (number : Option ℕ) (ms : Option ℤ) :
    Local s (waitForSingleObject number ms) :=
  local_of_world fun _ _ _ _ hact => (waitForSingleObject_spec hact).1

/-- So does a look for an interrupt. -/
theorem local_checkUserInterrupt : Local s checkUserInterrupt :=
  local_of_world fun _ _ _ _ hact => (Prod.mk.inj (Option.some.inj hact)).2.symm

/-- So does `TerminateProcess()` for the object. -/
theorem local_terminateProcess (number : Option ℕ) (code : Dword) :
    Local s (terminateProcess s number code) := by
  intro w c r w' hact
  rcases terminateProcess_spec hact with ⟨pid, -, -, hrunning, rfl⟩ | ⟨-, rfl⟩
  · refine ⟨.of_setProc rfl rfl rfl ⟨[_], rfl⟩ (fun c hc => ?_) ?_, fun _ _ => rfl⟩
    · rcases hc with hc | ⟨t, hc⟩ <;> rw [hrunning] at hc <;> cases hc
    · intro c t hc
      rw [hrunning] at hc
      cases hc
  · exact ⟨.of_handles rfl rfl ⟨[_], rfl⟩ fun _ h => h, fun _ _ => rfl⟩

/-- So does storing its exit status. -/
theorem local_collectExitStatus (code : Dword) : Local s (collectExitStatus s code) := by
  intro w c r w' hact
  obtain ⟨h, endTime, hhandle, rfl, -⟩ := collectExitStatus_spec hact
  exact ⟨.of_handles rfl rfl ⟨[], rfl⟩ fun _ => setHandle_none hhandle _,
    fun s' hs => handles_setHandle_of_ne w hs _⟩

/-- So does closing its process handle. -/
theorem local_closeProcess : Local s (closeProcess s) := by
  intro w c r w' hact
  obtain ⟨h, hhandle, hhandles, hprocs, hsexps, -, hlog⟩ := closeProcess_spec hact
  rw [hhandles]
  refine ⟨.of_handles hprocs hsexps ⟨[_], hlog⟩ fun s' hs' => ?_,
    fun s' hs => handles_setHandle_of_ne w hs _⟩
  rw [hhandles]
  exact setHandle_none hhandle _ hs'

/-- So does clearing its pointer. -/
theorem local_clearPointer : Local s (clearPointer s) := by
  intro w c r w' hact
  obtain ⟨-, rfl⟩ := Prod.mk.inj (Option.some.inj hact)
  refine ⟨.of_handles rfl rfl ⟨[], rfl⟩ fun s' hs' => ?_,
    fun s' hs => handles_setHandle_of_ne w hs _⟩
  by_cases heq : s' = s
  · rw [heq, handles_setHandle_self]
  · rwa [handles_setHandle_of_ne w heq]

/-- A program for one object. -/
abbrev LocalProg (s : Sexp) {α : Type} (p : Call α) : Prop := p.Each (Local s)

/-- `processx_is_alive()` leaves the other objects alone. -/
theorem processxIsAlive_local : LocalProg s (processxIsAlive s) := by
  refine .step (local_readHandle s) fun handle => ?_
  cases handle with
  | none => trivial
  | some h =>
    dsimp only
    split_ifs
    · trivial
    · refine .step (local_getExitCodeProcess _) fun code => ?_
      cases code with
      | none => trivial
      | some code =>
        dsimp only
        split_ifs
        · trivial
        · exact .step (local_collectExitStatus code) fun _ => trivial

/-- So does `processx_get_exit_status()`. -/
theorem processxGetExitStatus_local : LocalProg s (processxGetExitStatus s) := by
  refine .step (local_readHandle s) fun handle => ?_
  cases handle with
  | none => trivial
  | some h =>
    dsimp only
    split_ifs
    · trivial
    · refine .step (local_getExitCodeProcess _) fun code => ?_
      cases code with
      | none => trivial
      | some code =>
        dsimp only
        split_ifs
        · trivial
        · exact .step (local_collectExitStatus code) fun _ =>
            .step (local_readExitcode s) fun _ => trivial

/-- So does `processx__proc_end_time()`. -/
theorem procEndTime_local : LocalProg s (procEndTime s) := by
  refine .step (local_readHandle s) fun handle => ?_
  cases handle with
  | none => trivial
  | some h =>
    dsimp only
    split_ifs <;> trivial

/-- So does the loop of a wait. -/
theorem waitLoop_local (number : Option ℕ) (ctimeout : ℤ) (rounds : ℕ) (timeleft : ℤ) :
    LocalProg s (waitLoop number ctimeout rounds timeleft) := by
  induction rounds generalizing timeleft with
  | zero => trivial
  | succ rounds ih =>
    rw [waitLoop]
    split_ifs
    · refine .step (local_waitForSingleObject _ _) fun err => ?_
      split_ifs
      · trivial
      · refine .step local_checkUserInterrupt fun interrupted => ?_
        split_ifs
        · trivial
        · exact ih _
    · trivial

/-- So does `processx_wait()`. -/
theorem processxWait_local (rounds : ℕ) (timeout : ℤ) :
    LocalProg s (processxWait rounds s timeout) := by
  refine .step (local_readHandle s) fun handle => ?_
  cases handle with
  | none => trivial
  | some h =>
    dsimp only
    split_ifs
    · trivial
    · refine .bind (waitLoop_local _ _ _ _) fun a => .bind ?_ fun err => ?_
      · rw [waitRest]
        split_ifs
        · exact .lift (local_waitForSingleObject _ _)
        · trivial
      · cases err with
        | failed | timeout => trivial
        | object =>
          refine .step (local_getExitCodeProcess _) fun code => ?_
          cases code with
          | none => trivial
          | some code => exact .step (local_collectExitStatus code) fun _ => trivial

/-- So does `processx__terminate()`. -/
theorem terminate_local : LocalProg s (terminate s) := by
  refine .step (local_readHandle s) fun handle => ?_
  cases handle with
  | none => trivial
  | some h =>
    refine .step (local_terminateProcess _ _) fun ok => .bind ?_ fun _ => ?_
    · rw [collectTerminated]
      split_ifs
      · exact .lift (local_collectExitStatus 2)
      · trivial
    · refine .step (local_waitForSingleObject _ _) fun _ => ?_
      exact .step local_closeProcess fun _ => trivial

/-- So does `processx_signal()`. -/
theorem processxSignal_local (sig : ℤ) : LocalProg s (processxSignal s sig) := by
  refine .step (local_readHandle s) fun handle => ?_
  cases handle with
  | none => trivial
  | some h =>
    dsimp only
    split_ifs
    · trivial
    · refine .step (local_getExitCodeProcess _) fun code => ?_
      cases code with
      | none => trivial
      | some code =>
        dsimp only
        split_ifs
        · exact terminate_local
        · exact .step (local_collectExitStatus code) fun _ => trivial
    · refine .step (local_getExitCodeProcess _) fun code => ?_
      cases code <;> trivial
    · trivial

/-- So does the finalizer of the object. -/
theorem finalizer_local : LocalProg s (finalizer s) := by
  refine .step (local_readHandle s) fun handle => ?_
  cases handle with
  | none => trivial
  | some h =>
    refine .bind ?_ fun _ => .bind ?_ fun _ => .lift local_clearPointer
    · rw [terminateIfNeeded]
      split_ifs
      · exact .bind terminate_local fun _ => trivial
      · trivial
    · refine .step (local_readHandle s) fun handle => ?_
      cases handle with
      | none => trivial
      | some h =>
        dsimp only
        split_ifs
        · exact .lift local_closeProcess
        · trivial

/-- The object a call is for. -/
def SystemCall.status : SystemCall → Option Sexp
  | .exec _ => none
  | .isAlive s => some s
  | .getExitStatus s => some s
  | .endTime s => some s
  | .wait s _ => some s
  | .signal s _ => some s
  | .kill s => some s
  | .gc => none

/-- So does every call that is for one object. -/
theorem systemCall_local (rounds : ℕ) {call : SystemCall} (hcall : call.status = some s) :
    LocalProg s (call.run rounds) := by
  cases call with
  | exec | gc => cases hcall
  | isAlive s' =>
    obtain rfl := Option.some.inj hcall
    exact .bind processxIsAlive_local fun _ => trivial
  | getExitStatus s' =>
    obtain rfl := Option.some.inj hcall
    exact .bind processxGetExitStatus_local fun _ => trivial
  | endTime s' =>
    obtain rfl := Option.some.inj hcall
    exact .bind procEndTime_local fun _ => trivial
  | wait s' timeout =>
    obtain rfl := Option.some.inj hcall
    exact .bind (processxWait_local rounds timeout) fun _ => trivial
  | signal s' sig =>
    obtain rfl := Option.some.inj hcall
    exact .bind (processxSignal_local sig) fun _ => trivial
  | kill s' =>
    obtain rfl := Option.some.inj hcall
    exact .bind (processxSignal_local 9) fun _ => trivial

/-- An action that only lets things grow. -/
def Grows {ρ : Type} (a : Act ρ) : Prop := ∀ w c r w', a w c = some (r, w') → Later w w'

/-- An action for one object lets things grow only. -/
theorem Local.grows {ρ : Type} {a : Act ρ} (h : Local s a) : Grows a :=
  fun w c r w' hact => (h w c r w' hact).1

/-- So does a program for one object. -/
theorem LocalProg.grows {α : Type} {p : Call α} (h : LocalProg s p) : p.Each Grows :=
  h.mono fun _ ha => ha.grows

/-- So does a system call that succeeds or fails. -/
theorem sysCall_grows : Grows sysCall := by
  intro w c r w' hact
  rw [sysCall_spec hact]
  exact .refl w

/-- So does `processx_exec()`. -/
theorem processxExec_grows (cleanup : Bool) : (processxExec cleanup).Each Grows := by
  refine .step sysCall_grows fun prepared => ?_
  split_ifs
  · trivial
  refine .step (fun _ _ _ _ hact => makeHandle_later hact) fun result => ?_
  cases result with
  | none => trivial
  | some s =>
    refine .step sysCall_grows fun found => ?_
    split_ifs
    · exact .step local_clearPointer.grows fun _ => trivial
    refine .step sysCall_grows fun streams => ?_
    split_ifs
    · trivial
    refine .step (fun _ _ _ _ hact => createProcess_later hact) fun created => ?_
    split_ifs
    · trivial
    refine .bind ?_ fun assigned => ?_
    · rw [assignJob]
      split_ifs
      · exact .lift sysCall_grows
      · trivial
    · split_ifs
      · trivial
      · refine .step sysCall_grows fun resumed => ?_
        split_ifs <;> trivial

/-- Garbage collection picks objects, and changes nothing itself. -/
theorem collectGarbage_world {w w' : World} {c : Choice} {r : List Sexp}
    (hact : collectGarbage w c = some (r, w')) : w' = w := by
  unfold collectGarbage at hact
  split at hact
  · exact (Prod.mk.inj (Option.some.inj hact)).2.symm
  · cases hact

/-- Finalizers let things grow only. -/
theorem runFinalizers_grows (dead : List Sexp) : (runFinalizers dead).Each Grows := by
  induction dead with
  | nil => trivial
  | cons s dead ih => exact .bind (finalizer_local (s := s)).grows fun _ => ih

/-- So does every call. -/
theorem systemCall_grows (rounds : ℕ) (call : SystemCall) : (call.run rounds).Each Grows := by
  cases call with
  | exec cleanup => exact .bind (processxExec_grows cleanup) fun _ => trivial
  | gc =>
    refine .step (fun w c r w' hact => ?_) fun dead => .bind (runFinalizers_grows dead) fun _ =>
      trivial
    rw [collectGarbage_world hact]
    exact .refl w
  | _ => exact (systemCall_local rounds rfl).grows

/-- So does every session. -/
theorem runSession_grows (rounds : ℕ) (calls : List SystemCall) :
    (runSession rounds calls).Each Grows := by
  induction calls with
  | nil => trivial
  | cons call calls ih =>
    exact .bind (systemCall_grows rounds call).attempt fun _ => .bind ih fun _ => trivial

/-- A run of such a program ends in a later state. -/
theorem later_of_runs {α : Type} {p : Call α} (hp : p.Each Grows) {w w' : World}
    {o : Option (Except String α)} (hrun : Runs World.move p w o w') : Later w w' := by
  have hkept : Kept World.move (Later w) (Later w) :=
    ⟨fun _ _ _ hw hmove => hw.trans (move_spec hmove).1, fun _ hw => hw⟩
  refine (Ensures.each hkept (hp.mono fun a ha => ?_) w o w' (.refl w) hrun).1
  exact fun w₁ c r w₂ hw hact => hw.trans (ha w₁ c r w₂ hact)

/-- A reply about an object is right: an exit status is that of the process, a time is that of
its end, a process that is said to be over is over, unless the object has been finalized, and if a
signal has ended the process, then it has the exit status 2. -/
def Reply.Right (w : World) : Reply → Prop
  | (.getExitStatus s, .ok (.code (some n))) =>
    ∃ pid c, .started s pid ∈ w.log ∧ EndsWith w pid c ∧ n = c.toInt
  | (.endTime s, .ok (.time (some t))) => (some .running, true) ∈ attempts s w.log ∨
    ∃ pid c t', .started s pid ∈ w.log ∧ w.procs pid = some (.exited c t') ∧ t = t' - epochStart
  | (.isAlive s, .ok (.flag false)) => Known s w
  | (.wait s _, .ok (.flag true)) => Known s w
  | (.signal s sig, .ok (.flag true)) => sig = 0 ∨ Killed s w
  | (.kill s, .ok (.flag true)) => Killed s w
  | _ => True

/-- What is known of an object stays known. -/
theorem Later.known_of {w w' : World} (h : Later w w') (hs : Known s w) : Known s w' := by
  rcases hs with ⟨hlt, hnone⟩ | ⟨pid, c, hstarted, hends⟩
  · exact Or.inl ⟨hlt.trans_le h.sexps, h.gone s hlt hnone⟩
  · exact Or.inr ⟨pid, c, h.mem hstarted, h.ends pid c hends⟩

/-- What was tried stays tried. -/
theorem Later.attempts_of {w w' : World} (h : Later w w') {a : Option Proc × Bool}
    (ha : a ∈ attempts s w.log) : a ∈ attempts s w'.log := by
  obtain ⟨new, hlog⟩ := h.log
  rw [hlog, attempts, List.filterMap_append]
  exact List.mem_append_right _ ha

/-- A process that the package has ended stays ended. -/
theorem Later.killed_of {w w' : World} (h : Later w w') (hs : Killed s w) : Killed s w' := by
  obtain ⟨ha, pid, hstarted, hends⟩ := hs
  exact ⟨h.attempts_of ha, pid, h.mem hstarted, h.ends pid 2 hends⟩

/-- What was right stays right. -/
theorem Later.right_of {w w' : World} (h : Later w w') {reply : Reply} (hr : reply.Right w) :
    reply.Right w' := by
  unfold Reply.Right at hr ⊢
  split
  · obtain ⟨pid, c, hstarted, hends, hn⟩ := hr
    exact ⟨pid, c, h.mem hstarted, h.ends pid c hends, hn⟩
  · rcases hr with ha | ⟨pid, c, t, hstarted, hexited, ht⟩
    · exact Or.inl (h.attempts_of ha)
    · exact Or.inr ⟨pid, c, t, h.mem hstarted, h.exited pid c t hexited, ht⟩
  · exact h.known_of hr
  · exact h.known_of hr
  · exact hr.imp_right h.killed_of
  · exact h.killed_of hr
  · trivial

/-- A call whose answer is wrapped. -/
theorem answer_ensures {call : SystemCall} {α : Type} {p : Call α} {f : α → Answer}
    (herror : ∀ w e, Reply.Right w (call, .error e))
    (hp : Ensures World.move Sound Settled p (fun r w => Settled w ∧
      ∀ a, r = .ok a → Reply.Right w (call, .ok (f a)))) :
    Ensures World.move Sound Settled (p >>= fun a => .ret (f a))
      (fun r w => Settled w ∧ Reply.Right w (call, r)) := by
  refine .bind hp (fun a => ?_) fun e w hw => ⟨hw.1, herror w e⟩
  refine .ret (kept_settled.and fun w m w' hw hmove b hb => ?_) fun w hw => ⟨hw.1, hw.2 a rfl⟩
  exact (move_spec hmove).1.right_of (hw b hb)

/-- Every call keeps the invariants, and its reply is right. -/
theorem systemCall_ensures (rounds : ℕ) (call : SystemCall) :
    Ensures World.move Sound Settled (call.run rounds)
      (fun r w => Settled w ∧ Reply.Right w (call, r)) := by
  cases call with
  | exec cleanup =>
    refine answer_ensures (fun _ _ => trivial) ?_
    exact (processxExec_ensures cleanup).conseq (fun _ hw => hw) fun r w hw =>
      ⟨hw, fun _ _ => trivial⟩
  | isAlive s =>
    refine answer_ensures (fun _ _ => trivial) ?_
    refine (processxIsAlive_ensures s).conseq (fun _ hw => hw) fun r w hw => ⟨hw.1, ?_⟩
    rintro (_ | _) rfl
    · exact hw.2 rfl
    · trivial
  | getExitStatus s =>
    refine answer_ensures (fun _ _ => trivial) ?_
    refine (processxGetExitStatus_ensures s).conseq (fun _ hw => hw) fun r w hw => ⟨hw.1, ?_⟩
    rintro (_ | n) rfl
    · trivial
    · exact hw.2 n rfl
  | endTime s =>
    refine answer_ensures (fun _ _ => trivial) ?_
    refine (procEndTime_ensures s).conseq (fun _ hw => hw) fun r w hw => ⟨hw.1, ?_⟩
    rintro (_ | t) rfl
    · trivial
    · exact hw.2 t rfl
  | wait s timeout =>
    refine answer_ensures (fun _ _ => trivial) ?_
    refine (processxWait_ensures rounds s timeout).conseq (fun _ hw => hw) fun r w hw => ⟨hw.1, ?_⟩
    rintro (_ | _) rfl
    · trivial
    · exact hw.2 rfl
  | signal s sig =>
    refine answer_ensures (fun _ _ => trivial) ?_
    refine (processxSignal_ensures s sig).conseq (fun _ hw => hw) fun r w hw => ⟨hw.1, ?_⟩
    rintro (_ | _) rfl
    · trivial
    · exact hw.2 rfl
  | kill s =>
    refine answer_ensures (fun _ _ => trivial) ?_
    refine (processxSignal_ensures s 9).conseq (fun _ hw => hw) fun r w hw => ⟨hw.1, ?_⟩
    rintro (_ | _) rfl
    · trivial
    · exact (hw.2 rfl).resolve_left (by decide)
  | gc =>
    refine .step kept_settled (fun _ => Settled) (fun w c r w' hw hact => ?_) fun dead => ?_
    · rwa [collectGarbage_world hact]
    · exact .bind (runFinalizers_ensures dead)
        (fun _ => .ret kept_settled fun _ hw => ⟨hw, trivial⟩) fun _ _ hw => ⟨hw, trivial⟩

/-- A session starts between two calls. -/
theorem settled_empty : Settled {} := by
  refine ⟨⟨?_, ?_, ?_, ?_, ?_, ?_, ?_⟩, ?_⟩
  all_goals simp [attempts]

/-- Every session keeps the invariants, and all of its replies are right to its end. -/
theorem runSession_ensures (rounds : ℕ) (calls : List SystemCall) :
    Ensures World.move Sound Settled (runSession rounds calls) (fun r w => Settled w ∧
      ∀ replies, r = .ok replies → ∀ reply ∈ replies, Reply.Right w reply) := by
  induction calls with
  | nil =>
    refine .ret kept_settled fun w hw => ⟨hw, fun replies hr reply hreply => ?_⟩
    rw [← Except.ok.inj hr] at hreply
    cases hreply
  | cons call calls ih =>
    refine .attempt (systemCall_ensures rounds call) fun answer => ?_
    have hright : ∀ w m w', Reply.Right w (call, answer) → World.move w m = some w' →
        Reply.Right w' (call, answer) := fun w m w' hw hmove => (move_spec hmove).1.right_of hw
    -- what this call has answered stays right while the others run
    have hrest := ih.frame hright
      ((runSession_grows rounds calls).mono fun a ha w c r w' hw hact =>
        (ha w c r w' hact).right_of hw)
    refine .bind hrest (fun replies => ?_) fun e w hw => ⟨hw.1.1, nofun⟩
    refine .ret ((kept_settled.and fun w m w' hw hmove replies hr reply hreply => ?_).and hright)
      fun w hw => ⟨hw.1.1, fun all hall reply hreply => ?_⟩
    · exact (move_spec hmove).1.right_of (hw replies hr reply hreply)
    · rw [← Except.ok.inj hall] at hreply
      rcases List.mem_cons.mp hreply with rfl | hreply
      · exact hw.2
      · exact hw.1.2 replies rfl reply hreply

/-- Actions that come out in these ways. -/
def acts (choices : List Choice) : List (Cue Move Choice) := choices.map .act

/-- At any moment of a session, an open entry of the table refers to the process of one object and
its handle has the entry's number, and what `CloseHandle()` was called for was the process that the
object had started, or nothing. -/
theorem session_owns (rounds : ℕ) (calls : List SystemCall)
    (o : Option (Except String (List Reply))) (w : World)
    (hrun : Runs World.move (runSession rounds calls) {} o w) :
    (∀ n pid, w.table n = some pid → ∃! s, ∃ h, w.handles s = some h ∧ h.hProcess = some n ∧
      .started s pid ∈ w.log) ∧
    (∀ s h n, w.handles s = some h → h.hProcess = some n → w.table n ≠ none) ∧
    ∀ s n before, .closed s n before ∈ w.log →
      n = none ∧ before = none ∨ ∃ pid, before = some pid ∧ .started s pid ∈ w.log := by
  have hw : Sound w := (runSession_ensures rounds calls {} o w settled_empty hrun).1
  refine ⟨fun n pid hn => ?_, fun s h n hh hnumber => ?_, hw.closes⟩
  · obtain ⟨s, h, hh, hnumber⟩ := hw.owner n pid hn
    have hsound := hw.handles s h hh
    have hpid : h.dwProcessId = pid := Option.some.inj ((hsound.entry n hnumber).symm.trans hn)
    refine ⟨s, ⟨h, hh, hnumber, ?_⟩, ?_⟩
    · rw [← hpid]
      exact hsound.born (Or.inl (by simp [hnumber]))
    · rintro s' ⟨h', hh', hnumber', -⟩
      exact hw.injective hh' hh hnumber' hnumber
  · rw [(hw.handles s h hh).entry n hnumber]
    nofun

/-- The entry of a process that was started. -/
theorem session_owns_open : ∃ w,
    Runs World.move (runSession 1 [.exec false]) {}
      (some (.ok [(.exec false, .ok (.object 0))])) w ∧
    ∃! s, ∃ h, w.handles s = some h ∧ h.hProcess = some 4 ∧ .started s 7 ∈ w.log := by
  obtain ⟨w, hrun, hentry⟩ : ∃ w, Runs World.move (runSession 1 [.exec false]) {}
      (some (.ok [(.exec false, .ok (.object 0))])) w ∧ w.table 4 = some 7 :=
    exists_run_of_drive (acts [.ok, .ok, .ok, .ok, .process 4 7, .ok])
      (fun w : World => w.table 4) rfl
  exact ⟨w, hrun, (session_owns _ _ _ _ hrun).1 4 7 hentry⟩

/-- A reply that says that a signal has ended the process of an object. -/
def Reply.killed (s : Sexp) : Reply → Bool
  | (.signal s' sig, .ok (.flag true)) => decide (s' = s ∧ sig ≠ 0)
  | (.kill s', .ok (.flag true)) => decide (s' = s)
  | _ => false

/-- What the package has tried successfully to end the process of an object. -/
def Tried.Once (s : Sexp) (w : World) : Prop :=
  Settled w ∧ (some .running, true) ∈ attempts s w.log

/-- Processes that end do not undo an attempt. -/
theorem stable_once (s : Sexp) : Stable (Tried.Once s) :=
  stable_settled.and fun w w' hw hm => by rwa [hm.log]

/-- Nor does anything else that happens between two calls. -/
theorem kept_once (s : Sexp) : Kept World.move Sound (Tried.Once s) :=
  (stable_once s).kept fun _ hw => hw.1.toSound

/-- An object whose process was ended has no handle of it. -/
theorem Tried.Once.closed {w : World} (hw : Tried.Once s w) {h : Handle}
    (hh : w.handles s = some h) : h.hProcess = none := by
  obtain ⟨hsettled, hmem⟩ := hw
  cases hsettled.phase s h hh with
  | killed hnone => exact hnone
  | lost hnone => exact hnone
  | unborn hnone => exact hnone
  | live _ hnil => simp [hnil] at hmem

/-- A process that was ended is not ended again. -/
theorem processxSignal_again (s : Sexp) {sig : ℤ} (hsig : sig ≠ 0) :
    Ensures World.move Sound (Tried.Once s) (processxSignal s sig)
      (fun r w => Sound w ∧ r ≠ .ok true) := by
  refine readHandle_ensures (kept_once s) fun handle => ?_
  have hkept : Kept World.move Sound fun w => Tried.Once s w ∧ s < w.sexps ∧ w.handles s = handle :=
    ((stable_once s).and fun w w' hw hm => by rwa [hm.handles, hm.sexps]).kept
      fun w hw => hw.1.1.toSound
  cases handle with
  | none => exact .ret hkept fun w hw => ⟨hw.1.1.toSound, by simp⟩
  | some h =>
    dsimp only
    split_ifs with hcollected hkill
    · exact .ret hkept fun w hw => ⟨hw.1.1.toSound, by simp⟩
    · refine .act hkept (fun r w => r = none ∧ Sound w) (fun w c r w' hw hact => ?_) fun r =>
        .of_fact ?_
      · rw [hw.1.closed hw.2.2] at hact
        obtain ⟨rfl, hnone | ⟨code, t, -, hproc⟩ | ⟨-, hproc, -⟩⟩ := getExitCodeProcess_spec hact
        · exact ⟨hnone, hw.1.1.toSound⟩
        · simp [World.proc, World.process] at hproc
        · simp [World.proc, World.process] at hproc
      · rintro rfl
        exact .throw (stable_sound.kept fun _ hw => hw) fun w hw => ⟨hw, by simp⟩
    · exact .throw hkept fun w hw => ⟨hw.1.1.toSound, by simp⟩

/-- Once the package has ended the process of an object, no call does so again. -/
theorem systemCall_again (rounds : ℕ) (call : SystemCall) (s : Sexp) :
    Ensures World.move Sound (Tried.Once s) (call.run rounds)
      (fun r _ => Reply.killed s (call, r) = false) := by
  have hsignal : ∀ sig, sig ≠ 0 → Ensures World.move Sound (Tried.Once s)
      (processxSignal s sig >>= fun b => .ret (Answer.flag b))
      (fun r _ => r ≠ .ok (.flag true)) := by
    intro sig hsig
    refine .bind (processxSignal_again s hsig) (fun b => ?_) fun e w _ => nofun
    refine .ret ((stable_sound.and (stable_const _)).kept fun w hw => hw.1) fun w hw hb => hw.2 ?_
    rw [Answer.flag.inj (Except.ok.inj hb)]
  cases call with
  | signal s' sig =>
    by_cases hs : s' = s ∧ sig ≠ 0
    · obtain ⟨rfl, hsig⟩ := hs
      refine (hsignal sig hsig).conseq (fun _ hw => hw) fun r w hr => ?_
      unfold Reply.killed
      split <;> simp_all
    · refine (systemCall_ensures rounds (.signal s' sig)).conseq (fun w hw => hw.1) fun r w _ => ?_
      unfold Reply.killed
      split <;> simp_all
  | kill s' =>
    by_cases hs : s' = s
    · subst hs
      refine (hsignal 9 (by decide)).conseq (fun _ hw => hw) fun r w hr => ?_
      unfold Reply.killed
      split <;> simp_all
    · refine (systemCall_ensures rounds (.kill s')).conseq (fun w hw => hw.1) fun r w _ => ?_
      unfold Reply.killed
      split <;> simp_all
  | _ => exact (systemCall_ensures rounds _).conseq (fun w hw => hw.1) fun r w _ => rfl

/-- A reply that says that a process was ended is right. -/
theorem Reply.Right.once {w : World} {reply : Reply} (hr : Reply.Right w reply)
    (hkilled : reply.killed s = true) : (some .running, true) ∈ attempts s w.log := by
  unfold Reply.killed at hkilled
  split at hkilled
  · obtain ⟨rfl, hsig⟩ := of_decide_eq_true hkilled
    exact (Or.resolve_left hr hsig).1
  · obtain rfl := of_decide_eq_true hkilled
    exact hr.1
  · cases hkilled

/-- A session that goes on after its first call. -/
theorem runSession_cons {call : SystemCall} {calls : List SystemCall} {rounds : ℕ}
    {P : World → Prop} {R : Except String Answer → World → Prop}
    {Q : Except String Answer → List Reply → Prop}
    (hcall : Ensures World.move Sound P (call.run rounds) R)
    (hrest : ∀ answer, Ensures World.move Sound (R answer) (runSession rounds calls)
      (fun r w => Settled w ∧ ∀ replies, r = .ok replies → Q answer ((call, answer) :: replies))) :
    Ensures World.move Sound P (runSession rounds (call :: calls))
      (fun r w => Settled w ∧ ∀ replies, r = .ok replies → ∃ answer, Q answer replies) := by
  refine .attempt hcall fun answer => .bind (hrest answer) (fun replies => ?_) fun e w hw =>
    ⟨hw.1, nofun⟩
  refine .ret ((stable_settled.and (stable_const _)).kept fun w hw => hw.1.toSound) fun w hw =>
    ⟨hw.1, fun all hall => ⟨answer, ?_⟩⟩
  rw [← Except.ok.inj hall]
  exact hw.2 replies rfl

/-- Once the process of an object was ended, no later signal says that it has ended it. -/
theorem runSession_again (rounds : ℕ) (calls : List SystemCall) (s : Sexp) :
    Ensures World.move Sound (Tried.Once s) (runSession rounds calls) (fun r w => Settled w ∧
      ∀ replies, r = .ok replies → replies.countP (Reply.killed s) = 0) := by
  induction calls with
  | nil =>
    refine .ret (kept_once s) fun w hw => ⟨hw.1, fun replies hr => ?_⟩
    rw [← Except.ok.inj hr]
    rfl
  | cons call calls ih =>
    have honce := (systemCall_ensures rounds call).frame
      (R := fun w => (some .running, true) ∈ attempts s w.log)
      (fun w m w' hw hmove => (move_spec hmove).1.attempts_of hw)
      ((systemCall_grows rounds call).mono fun _ ha w c r w' hw hact =>
        (ha w c r w' hact).attempts_of hw)
    refine (runSession_cons (Q := fun _ replies => replies.countP (Reply.killed s) = 0)
      (honce.both (systemCall_again rounds call s)) fun answer => ?_).conseq (fun _ hw => hw)
      fun r w hw => ⟨hw.1, fun replies hr => (hw.2 replies hr).choose_spec⟩
    intro w o w' hw hrun
    obtain ⟨hsound, hrest⟩ := ih w o w' ⟨hw.1.1.1, hw.1.2⟩ hrun
    refine ⟨hsound, fun r hr => ⟨(hrest r hr).1, fun replies hreplies => ?_⟩⟩
    rw [List.countP_cons_of_neg (by simp [hw.2])]
    exact (hrest r hr).2 replies hreplies

/-- At most one reply says that a signal has ended the process of an object. -/
theorem runSession_once (rounds : ℕ) (calls : List SystemCall) (s : Sexp) :
    Ensures World.move Sound Settled (runSession rounds calls) (fun r w => Settled w ∧
      ∀ replies, r = .ok replies → replies.countP (Reply.killed s) ≤ 1) := by
  induction calls with
  | nil =>
    refine .ret kept_settled fun w hw => ⟨hw, fun replies hr => ?_⟩
    rw [← Except.ok.inj hr]
    exact Nat.zero_le 1
  | cons call calls ih =>
    refine (runSession_cons (Q := fun _ replies => replies.countP (Reply.killed s) ≤ 1)
      (systemCall_ensures rounds call) fun answer => ?_).conseq (fun _ hw => hw)
      fun r w hw => ⟨hw.1, fun replies hr => (hw.2 replies hr).choose_spec⟩
    intro w o w' hw hrun
    by_cases hkilled : Reply.killed s (call, answer) = true
    · obtain ⟨hsound, hrest⟩ := runSession_again rounds calls s w o w'
        ⟨hw.1, hw.2.once hkilled⟩ hrun
      refine ⟨hsound, fun r hr => ⟨(hrest r hr).1, fun replies hreplies => ?_⟩⟩
      rw [List.countP_cons_of_pos hkilled, (hrest r hr).2 replies hreplies]
    · obtain ⟨hsound, hrest⟩ := ih w o w' hw.1 hrun
      refine ⟨hsound, fun r hr => ⟨(hrest r hr).1, fun replies hreplies => ?_⟩⟩
      rw [List.countP_cons_of_neg hkilled]
      exact (hrest r hr).2 replies hreplies

/-- In a session, at most one call for an object says that it has ended the process. -/
theorem session_kills_once (rounds : ℕ) (calls : List SystemCall) (replies : List Reply) (w : World)
    (s : Sexp) (hrun : Runs World.move (runSession rounds calls) {} (some (.ok replies)) w) :
    replies.countP (Reply.killed s) ≤ 1 :=
  ((runSession_once rounds calls s {} _ w settled_empty hrun).2 _ rfl).2 replies rfl

/-- A process is ended, and a second signal finds that it is over. -/
theorem session_kills_once_twice : ∃ w,
    Runs World.move (runSession 1 [.exec false, .kill 0, .signal 0 15]) {}
      (some (.ok [(.exec false, .ok (.object 0)), (.kill 0, .ok (.flag true)),
        (.signal 0 15, .ok (.flag false))])) w ∧
    List.countP (Reply.killed 0) [(.exec false, .ok (.object 0)), (.kill 0, .ok (.flag true)),
      (.signal 0 15, .ok (.flag false))] ≤ 1 := by
  obtain ⟨w, hrun, -⟩ : ∃ w, Runs World.move (runSession 1 [.exec false, .kill 0, .signal 0 15]) {}
      (some (.ok [(.exec false, .ok (.object 0)), (.kill 0, .ok (.flag true)),
        (.signal 0 15, .ok (.flag false))])) w ∧ w.sexps = 1 :=
    exists_run_of_drive (acts [.ok, .ok, .ok, .ok, .process 4 7, .ok, .ok, .ok, .ok, .ok,
      .time epochStart] ++ [.move (.exit 7 2 epochStart)] ++ acts [.ok, .ok, .ok]) World.sexps rfl
  exact ⟨w, hrun, session_kills_once _ _ _ _ _ hrun⟩

/-- The object has no process any more, but the exit status is not known. -/
def Lost (s : Sexp) (w : World) : Prop :=
  s < w.sexps ∧ ∃ h, w.handles s = some h ∧ h.hProcess = none ∧ h.collected = false ∧ h.endTime = 0

/-- A reply without an answer. -/
def Reply.Silent : Reply → Prop
  | (_, .error _) => True
  | (_, .ok (.time none)) => True
  | _ => False

/-- An object whose process is lost stays so, as long as its handle does not change. -/
theorem lost_frame {w w' : World} (hw : Lost s w) (hlater : Later w w')
    (hhandles : w'.handles s = w.handles s) : Lost s w' := by
  obtain ⟨hlt, h, hh, hlost⟩ := hw
  exact ⟨hlt.trans_le hlater.sexps, h, hhandles.trans hh, hlost⟩

/-- It stays so while processes end. -/
theorem kept_lost (s : Sexp) : Kept World.move (fun _ => True) (Lost s) where
  move w m w' hw hmove := by
    obtain ⟨hlater, -, hhandles, -⟩ := move_spec hmove
    exact lost_frame hw hlater (congrFun hhandles s)
  safe _ _ := trivial

/-- A program that fails for such an object, and changes nothing about it. -/
def Fails (s : Sexp) {α : Type} (P : World → Prop) (p : Call α) : Prop :=
  Ensures World.move (fun _ => True) P p (fun r w => Lost s w ∧ ∃ e, r = .error e)

/-- A program that throws fails. -/
theorem fails_throw {α : Type} (e : String) : Fails s (Lost s) (.throw e : Call α) :=
  .throw (kept_lost s) fun _ hw => ⟨hw, e, rfl⟩

/-- The handle of such an object, when it is read. -/
theorem readHandle_lost {α : Type} {f : Option Handle → Call α} {Q : Except String α → World → Prop}
    (hf : ∀ h : Handle, h.hProcess = none → h.collected = false → h.endTime = 0 →
      Ensures World.move (fun _ => True) (Lost s) (f (some h)) Q) :
    Ensures World.move (fun _ => True) (Lost s) (Prog.lift (readHandle s) >>= f) Q := by
  refine .step (kept_lost s) (fun r w => (∃ h : Handle, r = some h ∧ h.hProcess = none ∧
    h.collected = false ∧ h.endTime = 0) ∧ Lost s w) (fun w c r w' hw hact => ?_)
    fun r => .of_fact ?_
  · unfold readHandle at hact
    split_ifs at hact
    obtain ⟨rfl, rfl⟩ := Prod.mk.inj (Option.some.inj hact)
    obtain ⟨-, h, hh, hlost⟩ := id hw
    exact ⟨⟨h, hh, hlost⟩, hw⟩
  · rintro ⟨h, rfl, hnumber, hcollected, htime⟩
    exact hf h hnumber hcollected htime

/-- The exit code of nothing cannot be found out. -/
theorem getExitCodeProcess_lost {α : Type} {f : Option Dword → Call α} {e : String}
    (hf : f none = .throw e) : Fails s (Lost s) (Prog.lift (getExitCodeProcess none) >>= f) := by
  refine .step (kept_lost s) (fun r w => r = none ∧ Lost s w) (fun w c r w' hw hact => ?_)
    fun r => .of_fact ?_
  · obtain ⟨rfl, hnone | ⟨code, t, -, hproc⟩ | ⟨-, hproc, -⟩⟩ := getExitCodeProcess_spec hact
    · exact ⟨hnone, hw⟩
    · simp [World.proc, World.process] at hproc
    · simp [World.proc, World.process] at hproc
  · rintro rfl
    rw [hf]
    exact fails_throw e

/-- `processx_is_alive()` fails for an object whose process is lost. -/
theorem processxIsAlive_lost (s : Sexp) : Fails s (Lost s) (processxIsAlive s) := by
  refine readHandle_lost fun h hnumber hcollected _ => ?_
  dsimp only
  rw [hcollected, hnumber]
  exact getExitCodeProcess_lost rfl

/-- So does `processx_get_exit_status()`. -/
theorem processxGetExitStatus_lost (s : Sexp) : Fails s (Lost s) (processxGetExitStatus s) := by
  refine readHandle_lost fun h hnumber hcollected _ => ?_
  dsimp only
  rw [hcollected, hnumber]
  exact getExitCodeProcess_lost rfl

/-- So does `processx_signal()`. -/
theorem processxSignal_lost (s : Sexp) (sig : ℤ) : Fails s (Lost s) (processxSignal s sig) := by
  refine readHandle_lost fun h hnumber hcollected _ => ?_
  dsimp only
  rw [hcollected, hnumber, if_neg Bool.false_ne_true]
  split_ifs
  · exact getExitCodeProcess_lost rfl
  · exact getExitCodeProcess_lost rfl
  · exact fails_throw _

/-- `processx__proc_end_time()` finds no time for it. -/
theorem procEndTime_lost (s : Sexp) : Ensures World.move (fun _ => True) (Lost s) (procEndTime s)
    (fun r w => Lost s w ∧ r = .ok none) := by
  refine readHandle_lost fun h _ _ htime => ?_
  dsimp only
  rw [if_pos htime]
  exact .ret (kept_lost s) fun w hw => ⟨hw, rfl⟩

/-- Nothing cannot be waited for. -/
theorem waitForSingleObject_lost {ms : Option ℤ} {w w' : World} {c : Choice} {r : WaitAnswer}
    (hact : waitForSingleObject none ms w c = some (r, w')) : r = .failed ∧ w' = w := by
  obtain ⟨rfl, -, hproc⟩ := waitForSingleObject_spec hact
  refine ⟨?_, rfl⟩
  by_contra hr
  exact hproc hr rfl

/-- The loop ends at once: with a failure, or because there is not much time to wait. -/
theorem waitLoop_lost (ctimeout : ℤ) (rounds : ℕ) :
    Ensures World.move (fun _ => True) (Lost s) (waitLoop none ctimeout rounds ctimeout)
      (fun r w => Lost s w ∧ ∀ a, r = .ok a → a.1 = .failed ∨ a.1 = .timeout ∧ a.2 ≥ 0) := by
  cases rounds with
  | zero => exact .spin (kept_lost s)
  | succ rounds =>
    rw [waitLoop]
    split_ifs with htime
    · refine .step (kept_lost s) (fun r w => r = .failed ∧ Lost s w) (fun w c r w' hw hact => ?_)
        fun r => .of_fact ?_
      · obtain ⟨hr, rfl⟩ := waitForSingleObject_lost hact
        exact ⟨hr, hw⟩
      · rintro rfl
        refine .ret (kept_lost s) fun w hw => ⟨hw, fun a ha => Or.inl ?_⟩
        rw [← Except.ok.inj ha]
    · refine .ret (kept_lost s) fun w hw => ⟨hw, fun a ha => Or.inr ?_⟩
      rw [← Except.ok.inj ha]
      exact ⟨rfl, by omega⟩

/-- `processx_wait()` fails for it. -/
theorem processxWait_lost (rounds : ℕ) (s : Sexp) (timeout : ℤ) :
    Fails s (Lost s) (processxWait rounds s timeout) := by
  refine readHandle_lost fun h hnumber hcollected _ => ?_
  dsimp only
  rw [hcollected, hnumber]
  refine .bind (waitLoop_lost timeout rounds) (fun a => ?_) fun e w hw => ⟨hw.1, e, rfl⟩
  refine .conseq (R := fun w => (a.1 = .failed ∨ a.1 = .timeout ∧ a.2 ≥ 0) ∧ Lost s w)
    (.of_fact fun ha => ?_) (fun w hw => ⟨hw.2 a rfl, hw.1⟩) fun _ _ hq => hq
  rcases ha with hfailed | ⟨htimeout, htime⟩
  · rw [waitRest, if_neg (by simp [hfailed]), hfailed]
    exact fails_throw _
  · rw [waitRest, if_pos ⟨htimeout, htime⟩]
    refine .step (kept_lost s) (fun r w => r = .failed ∧ Lost s w) (fun w c r w' hw hact => ?_)
      fun r => .of_fact ?_
    · obtain ⟨hr, rfl⟩ := waitForSingleObject_lost hact
      exact ⟨hr, hw⟩
    · rintro rfl
      exact fails_throw _

/-- A call that fails answers nothing. -/
theorem Fails.answer {α : Type} {p : Call α} (hp : Fails s (Lost s) p) (f : α → Answer)
    (call : SystemCall) : Ensures World.move (fun _ => True) (Lost s) (p >>= fun a => .ret (f a))
      (fun r w => Lost s w ∧ Reply.Silent (call, r)) := by
  refine .bind hp (fun a w o w' hw _ => ?_) fun e w hw => ⟨hw.1, trivial⟩
  obtain ⟨-, e, he⟩ := hw
  cases he

/-- What a call for such an object answers. -/
theorem systemCall_lost (rounds : ℕ) {call : SystemCall} (hcall : call.status = some s) :
    Ensures World.move (fun _ => True) (Lost s) (call.run rounds)
      (fun r w => Lost s w ∧ Reply.Silent (call, r)) := by
  cases call with
  | exec | gc => cases hcall
  | isAlive s' =>
    obtain rfl := Option.some.inj hcall
    exact (processxIsAlive_lost s').answer _ _
  | getExitStatus s' =>
    obtain rfl := Option.some.inj hcall
    exact (processxGetExitStatus_lost s').answer _ _
  | endTime s' =>
    obtain rfl := Option.some.inj hcall
    refine .bind (procEndTime_lost s') (fun t => ?_) fun e w hw => ⟨hw.1, trivial⟩
    refine .ret ((kept_lost s').and fun _ _ _ hw _ => hw) fun w hw => ⟨hw.1, ?_⟩
    rw [Except.ok.inj hw.2]
    trivial
  | wait s' timeout =>
    obtain rfl := Option.some.inj hcall
    exact (processxWait_lost rounds s' timeout).answer _ _
  | signal s' sig =>
    obtain rfl := Option.some.inj hcall
    exact (processxSignal_lost s' sig).answer _ _
  | kill s' =>
    obtain rfl := Option.some.inj hcall
    exact (processxSignal_lost s' 9).answer _ _

/-- No call can find out about the process of the object. -/
def Unknown (s : Sexp) (w : World) : Prop := Lost s w ∨ Gone s w

/-- An object that has no handle any more gets none. -/
theorem Later.gone_of {w w' : World} (h : Later w w') (hw : Gone s w) : Gone s w' :=
  ⟨hw.1.trans_le h.sexps, h.gone s hw.1 hw.2⟩

/-- An object that nothing can be found out about stays so. -/
theorem unknown_frame {w w' : World} (hw : Unknown s w) (hlater : Later w w')
    (hhandles : w'.handles s = w.handles s) : Unknown s w' :=
  hw.imp (fun h => lost_frame h hlater hhandles) hlater.gone_of

/-- It stays so while processes end. -/
theorem kept_unknown (s : Sexp) : Kept World.move (fun _ => True) (Unknown s) where
  move w m w' hw hmove := by
    obtain ⟨hlater, -, hhandles, -⟩ := move_spec hmove
    exact unknown_frame hw hlater (congrFun hhandles s)
  safe _ _ := trivial

/-- Calls for other objects change nothing about it. -/
theorem LocalProg.unknown {α : Type} {p : Call α} {s' : Sexp} (hp : LocalProg s' p) (hs : s ≠ s') :
    Ensures World.move (fun _ => True) (Unknown s) p (fun _ => Unknown s) :=
  .each (kept_unknown s) <| hp.mono fun _ ha w c r w' hw hact =>
    unknown_frame hw (ha w c r w' hact).1 ((ha w c r w' hact).2 s hs)

/-- A new process for an object leaves the others alone. -/
theorem local_createProcess : Local s (createProcess s) := by
  intro w c r w' hact
  refine ⟨createProcess_later hact, fun s' hs => ?_⟩
  rcases createProcess_spec hact with rfl | ⟨h, number, pid, -, -, -, hhandles, -⟩
  · rfl
  · rw [hhandles]
    exact handles_setHandle_of_ne w hs _

/-- So does a system call that succeeds or fails. -/
theorem local_sysCall : Local s sysCall :=
  local_of_world fun _ _ _ _ hact => sysCall_spec hact

/-- A new object is not an old one. -/
theorem processxExec_unknown (cleanup : Bool) (s : Sexp) :
    Ensures World.move (fun _ => True) (Unknown s) (processxExec cleanup) (fun _ => Unknown s) := by
  have hsys : ∀ (f : Bool → Call Sexp),
      (∀ r, Ensures World.move (fun _ => True) (Unknown s) (f r) (fun _ => Unknown s)) →
      Ensures World.move (fun _ => True) (Unknown s) (Prog.lift sysCall >>= f)
        (fun _ => Unknown s) := by
    refine fun f hf => .step (kept_unknown s) (fun _ => Unknown s) (fun w c r w' hw hact => ?_) hf
    rwa [sysCall_spec hact]
  refine hsys _ fun prepared => ?_
  split_ifs
  · exact .throw (kept_unknown s) fun _ hw => hw
  refine .step (kept_unknown s) (fun r w => (∀ s', r = some s' → s ≠ s') ∧ Unknown s w)
    (fun w c r w' hw hact => ?_) fun result => .of_fact fun hnew => ?_
  · have hlt : s < w.sexps := hw.elim (fun h => h.1) fun h => h.1
    rcases makeHandle_spec hact with ⟨rfl, rfl⟩ | ⟨rfl, hhandles, -⟩
    · exact ⟨nofun, hw⟩
    · refine ⟨fun s' hs' => ?_, unknown_frame hw (makeHandle_later hact) ?_⟩
      · rw [← Option.some.inj hs']
        exact Nat.ne_of_lt hlt
      · rw [hhandles]
        exact handles_setHandle_of_ne w (Nat.ne_of_lt hlt) _
  cases result with
  | none => exact .throw (kept_unknown s) fun _ hw => hw
  | some s' =>
    refine LocalProg.unknown ?_ (hnew s' rfl)
    refine .step local_sysCall fun found => ?_
    split_ifs
    · exact .step local_clearPointer fun _ => trivial
    refine .step local_sysCall fun streams => ?_
    split_ifs
    · trivial
    refine .step local_createProcess fun created => ?_
    split_ifs
    · trivial
    refine .bind ?_ fun assigned => ?_
    · rw [assignJob]
      split_ifs
      · exact .lift local_sysCall
      · trivial
    · split_ifs
      · trivial
      · refine .step local_sysCall fun resumed => ?_
        split_ifs <;> trivial

/-- Between two calls nothing can be found out later, if it cannot be found out now. -/
theorem kept_settled_unknown (s : Sexp) :
    Kept World.move (fun _ => True) fun w => Settled w ∧ Unknown s w where
  move w m w' hw hmove :=
    ⟨kept_settled.move w m w' hw.1 hmove, (kept_unknown s).move w m w' hw.2 hmove⟩
  safe _ _ := trivial

/-- The garbage collection may finalize the object. -/
theorem runFinalizers_unknown (dead : List Sexp) (s : Sexp) :
    Ensures World.move (fun _ => True) (fun w => Settled w ∧ Unknown s w) (runFinalizers dead)
      (fun _ w => Settled w ∧ Unknown s w) := by
  induction dead with
  | nil => exact .ret (kept_settled_unknown s) fun _ hw => hw
  | cons s' dead ih =>
    refine .bind (R := fun _ w => Settled w ∧ Unknown s w) ?_ (fun _ => ih) fun _ _ hw => hw
    have hfinal : Ensures World.move (fun _ => True) (fun w => Settled w ∧ Unknown s w)
        (finalizer s') (fun _ w => Settled w ∧ Gone s' w) :=
      ((finalizer_ensures s').weaken fun _ _ => trivial).conseq (fun _ hw => hw.1) fun _ _ hw => hw
    by_cases hs : s = s'
    · subst hs
      exact hfinal.conseq (fun _ hw => hw) fun _ _ hw => ⟨hw.1, Or.inr hw.2⟩
    · have hother : Ensures World.move (fun _ => True) (fun w => Settled w ∧ Unknown s w)
          (finalizer s') (fun _ => Unknown s) :=
        (finalizer_local.unknown hs).conseq (fun _ hw => hw.2) fun _ _ hw => hw
      exact (hfinal.both hother).conseq (fun _ hw => hw) fun _ _ hw => ⟨hw.1.1, hw.2⟩

/-- Every call keeps what is not known about an object, and says nothing about it. -/
theorem systemCall_unknown (rounds : ℕ) (call : SystemCall) (s : Sexp) :
    Ensures World.move (fun _ => True) (fun w => Settled w ∧ Unknown s w) (call.run rounds)
      (fun r w => (Settled w ∧ Unknown s w) ∧
        (call.status = some s → Gone s w ∨ Reply.Silent (call, r))) := by
  have hsettled : Ensures World.move (fun _ => True) (fun w => Settled w ∧ Unknown s w)
      (call.run rounds) (fun _ => Settled) :=
    ((systemCall_ensures rounds call).weaken fun _ _ => trivial).conseq (fun _ hw => hw.1)
      fun _ _ hw => hw.1
  suffices h : Ensures World.move (fun _ => True) (fun w => Settled w ∧ Unknown s w)
      (call.run rounds)
      (fun r w => Unknown s w ∧ (call.status = some s → Gone s w ∨ Reply.Silent (call, r))) from
    (hsettled.both h).conseq (fun _ hw => hw) fun _ _ hw => ⟨⟨hw.1, hw.2.1⟩, hw.2.2⟩
  cases hcall : call.status with
  | some s' =>
    by_cases hs : s = s'
    · subst hs
      rintro w o w' ⟨-, hlost | hgone⟩ hrun
      · refine ⟨trivial, fun r hr => ?_⟩
        obtain ⟨hlost', hsilent⟩ := (systemCall_lost rounds hcall w o w' hlost hrun).2 r hr
        exact ⟨Or.inl hlost', fun _ => Or.inr hsilent⟩
      · refine ⟨trivial, fun r _ => ?_⟩
        have hgone' := (later_of_runs (systemCall_grows rounds call) hrun).gone_of hgone
        exact ⟨Or.inr hgone', fun _ => Or.inl hgone'⟩
    · refine ((systemCall_local rounds hcall).unknown hs).conseq (fun _ hw => hw.2) fun r w hw =>
        ⟨hw, fun heq => absurd (Option.some.inj heq).symm hs⟩
  | none =>
    suffices h : Ensures World.move (fun _ => True) (fun w => Settled w ∧ Unknown s w)
        (call.run rounds) (fun _ => Unknown s) from
      h.conseq (fun _ hw => hw) fun _ _ hw => ⟨hw, nofun⟩
    cases call with
    | exec cleanup =>
      refine .bind ((processxExec_unknown cleanup s).conseq (fun _ hw => hw.2) fun _ _ hw => hw)
        (fun _ => .ret (kept_unknown s) fun _ hw => hw) fun _ _ hw => hw
    | gc =>
      refine .step (kept_settled_unknown s) (fun _ w => Settled w ∧ Unknown s w)
        (fun w c r w' hw hact => ?_) fun dead => ?_
      · rwa [collectGarbage_world hact]
      · exact .bind (runFinalizers_unknown dead s)
          (fun _ => .ret (kept_settled_unknown s) fun _ hw => hw.2) fun _ _ hw => hw.2
    | isAlive | getExitStatus | endTime | wait | signal | kill => cases hcall

/-- From then on all replies for the object are silent, unless it has no handle any more. -/
theorem runSession_unknown (rounds : ℕ) (calls : List SystemCall) (s : Sexp) :
    Ensures World.move (fun _ => True) (fun w => Settled w ∧ Unknown s w) (runSession rounds calls)
      (fun r w => ∀ replies, r = .ok replies → ∀ reply ∈ replies, reply.1.status = some s →
        Gone s w ∨ reply.Silent) := by
  induction calls with
  | nil =>
    refine .ret (kept_settled_unknown s) fun w hw replies hr reply hreply => ?_
    rw [← Except.ok.inj hr] at hreply
    cases hreply
  | cons call calls ih =>
    refine .attempt (systemCall_unknown rounds call s) fun answer => ?_
    have hfirst : ∀ w w', (call.status = some s → Gone s w ∨ Reply.Silent (call, answer)) →
        Later w w' → call.status = some s → Gone s w' ∨ Reply.Silent (call, answer) :=
      fun w w' hw hlater hcall => (hw hcall).imp_left hlater.gone_of
    have hrest := ih.frame (fun w m w' hw hmove => hfirst w w' hw (move_spec hmove).1)
      ((runSession_grows rounds calls).mono fun a ha w c r w' hw hact =>
        hfirst w w' hw (ha w c r w' hact))
    refine .bind hrest (fun replies w o w' hw hrun => ?_) fun e w _ => nofun
    obtain ⟨hmoves, hend⟩ := hrun
    have hlater : Later w w' := by
      refine later_of_runs (p := (.ret () : Call Unit)) trivial (o := none) ⟨hmoves, Or.inl rfl⟩
    refine ⟨trivial, fun r hr all hall reply hreply hstatus => ?_⟩
    have hall' : all = (call, answer) :: replies := by
      rcases hend with hnone | hsome
      · rw [hnone] at hr
        cases hr
      · rw [hsome, Option.some.injEq] at hr
        rw [← hr] at hall
        exact (Except.ok.inj hall).symm
    rw [hall'] at hreply
    rcases List.mem_cons.mp hreply with rfl | hreply
    · exact (hw.2 hstatus).imp_left hlater.gone_of
    · exact (hw.1 replies rfl reply hreply hstatus).imp_left hlater.gone_of

/-- After `TerminateProcess()` has failed for an object, nothing is known about its process. -/
theorem Settled.unknown {w : World} (hw : Settled w) {before : Option Proc}
    (hfailed : (before, false) ∈ attempts s w.log) : Unknown s w := by
  have hlt : s < w.sexps := by
    by_contra hle
    rw [hw.untried s (not_lt.mp hle)] at hfailed
    cases hfailed
  cases hh : w.handles s with
  | none => exact Or.inr ⟨hlt, hh⟩
  | some h =>
    refine Or.inl ⟨hlt, h, hh, ?_⟩
    cases hw.phase s h hh with
    | unborn _ _ _ hnil => simp [hnil] at hfailed
    | live _ hnil => simp [hnil] at hfailed
    | killed _ _ _ hone => simp [hone] at hfailed
    | lost hnumber hcollected =>
      refine ⟨hnumber, hcollected, ?_⟩
      by_contra htime
      simp [((hw.handles s h hh).time htime).1] at hcollected

/-- If `TerminateProcess()` has failed for an object, because its process has just ended, then the
exit status is lost: as long as the object is not finalized, each later call for it fails or finds
out nothing. -/
theorem session_lost (rounds : ℕ) (calls calls' : List SystemCall) (earlier replies : List Reply)
    (w w' : World) (s : Sexp) (before : Option Proc)
    (hrun : Runs World.move (runSession rounds calls) {} (some (.ok earlier)) w)
    (hfailed : .terminate s before false ∈ w.log)
    (hrun' : Runs World.move (runSession rounds calls') w (some (.ok replies)) w')
    (hhandle : w'.handles s ≠ none) :
    ∀ reply ∈ replies, reply.1.status = some s → reply.Silent := by
  have hw := ((runSession_ensures rounds calls {} _ w settled_empty hrun).2 _ rfl).1
  have hmem : (before, false) ∈ attempts s w.log :=
    List.mem_filterMap.mpr ⟨_, hfailed, if_pos rfl⟩
  intro reply hreply hstatus
  refine ((runSession_unknown rounds calls' s w _ w' ⟨hw, hw.unknown hmem⟩ hrun').2 _ rfl
    replies rfl reply hreply hstatus).resolve_left ?_
  exact fun hgone => hhandle hgone.2

/-- A process ends just before it is killed, and then its exit status cannot be found out. -/
theorem session_lost_race : ∃ w w',
    Runs World.move (runSession 1 [.exec false, .kill 0]) {}
      (some (.ok [(.exec false, .ok (.object 0)), (.kill 0, .ok (.flag false))])) w ∧
    .terminate 0 (some (.exited 3 epochStart)) false ∈ w.log ∧
    Runs World.move (runSession 1 [.getExitStatus 0]) w
      (some (.ok [(.getExitStatus 0, .error "get exit status failed")])) w' ∧
    w'.handles 0 ≠ none ∧
    ∀ reply ∈ [(SystemCall.getExitStatus 0,
        (.error "get exit status failed" : Except String Answer))],
      reply.1.status = some 0 → Reply.Silent reply := by
  obtain ⟨w, w', hrun, hrun', hseen⟩ : ∃ w w',
      Runs World.move (runSession 1 [.exec false, .kill 0]) {}
        (some (.ok [(.exec false, .ok (.object 0)), (.kill 0, .ok (.flag false))])) w ∧
      Runs World.move (runSession 1 [.getExitStatus 0]) w
        (some (.ok [(.getExitStatus 0, .error "get exit status failed")])) w' ∧
      (decide (.terminate 0 (some (.exited 3 epochStart)) false ∈ w.log),
        (w'.handles 0).isSome) = (true, true) :=
    exists_run_after_drive (acts [.ok, .ok, .ok, .ok, .process 4 7, .ok, .ok, .ok, .ok] ++
      [.move (.exit 7 3 epochStart)] ++ acts [.ok, .ok, .ok]) (acts [.ok, .ok])
      (fun w w' : World => (decide (.terminate 0 (some (.exited 3 epochStart)) false ∈ w.log),
        (w'.handles 0).isSome)) rfl
  obtain ⟨hlog, hhandle⟩ := Prod.mk.inj hseen
  have hmem := of_decide_eq_true hlog
  have hsome : w'.handles 0 ≠ none := Option.isSome_iff_ne_none.mp hhandle
  exact ⟨w, w', hrun, hmem, hrun', hsome,
    session_lost _ _ _ _ _ _ _ _ _ hrun hmem hrun' hsome⟩

end Processx.Win.Process
