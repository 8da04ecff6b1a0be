import Processx.Unix.Actions
import Processx.Unix.Session

/-!
# Whom the package signals

The handle of a process exists long before its `pid` field is filled in. What
`c_processx_kill()`, and with it the finalizer, waits for and signals is what a fork
returned for the same handle if and only if the `pid` field was filled in before.
-/

namespace Processx

open Interruptible

/-- The handle and the number that a `waitpid()` or `kill()` of `c_processx_kill()`, or of a
wait inside of it, is about. -/
def Event.aim : Event → Option (Sexp × ℕ)
  | .waitpid .killCheck s pid _ => some (s, pid)
  | .waitpid .killReap s pid _ => some (s, pid)
  | .kill .kill s target _ _ => some (s, target.natAbs)
  | .kill .waitCheck s target _ _ => some (s, target.natAbs)
  | _ => none

/-- Every such number is greater than one, and a fork returned it for the same handle. -/
def TargetsRight : List Event → Prop
  | [] => True
  | e :: log => (∀ s pid, e.aim = some (s, pid) → 1 < pid ∧ .forked s pid ∈ log) ∧ TargetsRight log

/-- Before every such call the `pid` field of the handle was filled in. -/
def PidsStored : List Event → Prop
  | [] => True
  | e :: log => (∀ s pid, e.aim = some (s, pid) → ∃ n, .stored s n ∈ log) ∧ PidsStored log

/-- The `pid` field of a handle: filled in with what a fork returned for it, or `0`. -/
def PidFact (s : Sexp) (pid : ℕ) (log : List Event) : Prop :=
  (1 < pid ∧ .forked s pid ∈ log ∧ .stored s pid ∈ log) ∨ (pid = 0 ∧ ∀ n, .stored s n ∉ log)

/-- What holds at any moment of a run: the second statement is the invariant proper. -/
def Exact (w : World) : Prop := TargetsRight w.log ↔ PidsStored w.log

/-- What is known of the `pid` fields, and something else. -/
structure Pids (φ : World → Prop) (w : World) : Prop where
  exact : Exact w
  handles : ∀ s h, w.handles s = some h → PidFact s h.pid w.log
  old : ∀ s n, .stored s n ∈ w.log → s < w.sexps
  fact : φ w

/-- Facts that stay true while the log and the number of objects grow and no field is filled
in. -/
def Steady (φ : World → Prop) : Prop :=
  ∀ w w' new, φ w → w'.log = new ++ w.log → (∀ e ∈ new, ∀ s n, e ≠ .stored s n) →
    w.sexps ≤ w'.sexps → φ w'

/-- An event that fills in no field and aims at nothing. -/
def Event.isAside : Event → Bool
  | .stored .. => false
  | .waitpid .killCheck .. => false
  | .waitpid .killReap .. => false
  | .kill .kill .. => false
  | .kill .waitCheck .. => false
  | _ => true

/-- An event aside aims at nothing. -/
theorem aim_of_isAside {e : Event} (he : e.isAside = true) : e.aim = none := by
  unfold Event.aim
  split <;> first | rfl | cases he

/-- Notes are events aside. -/
theorem isAside_of_isNote {e : Event} (he : e.isNote = true) : e.isAside = true := by
  cases e <;> first | rfl | cases he

/-- A step that fills in no field and aims at nothing. Handles may disappear. -/
structure Aside (w w' : World) : Prop where
  sexps : w'.sexps = w.sexps
  handles : ∀ s h', w'.handles s = some h' → ∃ h, w.handles s = some h ∧ h.pid = h'.pid
  log : ∃ new, w'.log = new ++ w.log ∧ ∀ e ∈ new, e.isAside = true

/-- A step that changes neither the handles nor the log. -/
theorem Aside.of_eq {w w' : World} (hsexps : w'.sexps = w.sexps) (hhandles : w'.handles = w.handles)
    (hlog : w'.log = w.log) : Aside w w' :=
  ⟨hsexps, fun _ h' hh' => ⟨h', hhandles ▸ hh', rfl⟩, [], hlog, nofun⟩

/-- No step at all. -/
theorem Aside.refl (w : World) : Aside w w := .of_eq rfl rfl rfl

/-- One such step after another. -/
theorem Aside.trans {w₁ w₂ w₃ : World} (h₁ : Aside w₁ w₂) (h₂ : Aside w₂ w₃) : Aside w₁ w₃ where
  sexps := h₂.sexps.trans h₁.sexps
  handles s h' hh' := by
    obtain ⟨h₀, hh₀, hpid₀⟩ := h₂.handles s h' hh'
    obtain ⟨h, hh, hpid⟩ := h₁.handles s h₀ hh₀
    exact ⟨h, hh, hpid.trans hpid₀⟩
  log := by
    obtain ⟨new₁, hlog₁, hnew₁⟩ := h₁.log
    obtain ⟨new₂, hlog₂, hnew₂⟩ := h₂.log
    refine ⟨new₂ ++ new₁, by rw [hlog₂, hlog₁, List.append_assoc], fun e he => ?_⟩
    rcases List.mem_append.mp he with he | he
    · exact hnew₂ e he
    · exact hnew₁ e he

/-- A step that records one event. -/
theorem Aside.of_event {w w' : World} {e : Event} (hsexps : w'.sexps = w.sexps)
    (hhandles : w'.handles = w.handles) (hlog : w'.log = e :: w.log) (he : e.isAside = true) :
    Aside w w' :=
  ⟨hsexps, fun _ h' hh' => ⟨h', hhandles ▸ hh', rfl⟩, [e], hlog,
    fun _ hmem => List.mem_singleton.mp hmem ▸ he⟩

/-- An event aside is recorded. -/
theorem Aside.record (w : World) {e : Event} (he : e.isAside = true) : Aside w (w.record e) :=
  .of_event rfl rfl rfl he

/-- What the signal handler notes down is aside. -/
theorem aside_of_notes {w w' : World} (h : Notes w w') : Aside w w' := by
  obtain ⟨notes, hlog, hnotes⟩ := h.log
  refine ⟨h.sexps, fun s h' hh' => ⟨h', ?_, rfl⟩, notes, hlog, fun e he => ?_⟩
  · rw [← h.handles]
    exact hh'
  · exact isAside_of_isNote (hnotes e he)

/-- What was filled in before a step that fills in nothing. -/
theorem stored_of_append {new log : List Event} (hnew : ∀ e ∈ new, ∀ s n, e ≠ .stored s n)
    {s : Sexp} {n : ℕ} (h : .stored s n ∈ new ++ log) : .stored s n ∈ log := by
  rcases List.mem_append.mp h with h | h
  · exact absurd rfl (hnew _ h s n)
  · exact h

/-- Events aside fill in no field. -/
theorem ne_stored_of_isAside {new : List Event} (hnew : ∀ e ∈ new, e.isAside = true) :
    ∀ e ∈ new, ∀ s n, e ≠ .stored s n := by
  rintro e he s n rfl
  cases hnew _ he

/-- Events that fill in no field change nothing of what is known about one. -/
theorem PidFact.append {s : Sexp} {pid : ℕ} {new log : List Event} (h : PidFact s pid log)
    (hnew : ∀ e ∈ new, ∀ s n, e ≠ .stored s n) : PidFact s pid (new ++ log) := by
  rcases h with ⟨hpid, hforked, hstored⟩ | ⟨hpid, hnone⟩
  · exact Or.inl ⟨hpid, List.mem_append_right _ hforked, List.mem_append_right _ hstored⟩
  · exact Or.inr ⟨hpid, fun n hn => hnone n (stored_of_append hnew hn)⟩

/-- The two statements about the log agree after an event if they agree about it. -/
theorem exact_cons {e : Event} {log : List Event} (h : TargetsRight log ↔ PidsStored log)
    (he : ∀ s pid, e.aim = some (s, pid) →
      (1 < pid ∧ .forked s pid ∈ log ↔ ∃ n, .stored s n ∈ log)) :
    TargetsRight (e :: log) ↔ PidsStored (e :: log) :=
  and_congr (forall_congr' fun s => forall_congr' fun pid => imp_congr_right (he s pid)) h

/-- Events aside keep the invariant. -/
theorem exact_append {new log : List Event} (h : TargetsRight log ↔ PidsStored log)
    (hnew : ∀ e ∈ new, e.isAside = true) :
    TargetsRight (new ++ log) ↔ PidsStored (new ++ log) := by
  induction new with
  | nil => exact h
  | cons e new ih =>
    refine exact_cons (ih fun e he => hnew e (List.mem_cons_of_mem _ he)) fun s pid haim => ?_
    rw [aim_of_isAside (hnew e List.mem_cons_self)] at haim
    cases haim

variable {φ : World → Prop}

/-- Such a step keeps what is known. -/
theorem Pids.aside {w w' : World} (hφ : Steady φ) (h : Pids φ w) (hstep : Aside w w') :
    Pids φ w' := by
  obtain ⟨new, hlog, hnew⟩ := hstep.log
  refine ⟨?_, fun s h' hh' => ?_, fun s n hn => ?_, ?_⟩
  · rw [Exact, hlog]
    exact exact_append h.exact hnew
  · obtain ⟨h₀, hh₀, hpid⟩ := hstep.handles s h' hh'
    rw [hlog, ← hpid]
    exact (h.handles s h₀ hh₀).append (ne_stored_of_isAside hnew)
  · rw [hlog] at hn
    rw [hstep.sexps]
    exact h.old s n (stored_of_append (ne_stored_of_isAside hnew) hn)
  · exact hφ w w' new h.fact hlog (ne_stored_of_isAside hnew) hstep.sexps.ge

/-- Something is known of the number that a call is about. -/
def Aiming (φ : World → Prop) (s : Sexp) (pid : ℕ) (w : World) : Prop :=
  φ w ∧ PidFact s pid w.log

/-- What is known of a number stays known. -/
theorem steady_aiming (hφ : Steady φ) (s : Sexp) (pid : ℕ) : Steady (Aiming φ s pid) := by
  intro w w' new hw hlog hnew hsexps
  refine ⟨hφ w w' new hw.1 hlog hnew hsexps, ?_⟩
  rw [hlog]
  exact hw.2.append hnew

/-- Knowing less. -/
theorem Pids.mono {ψ : World → Prop} {w : World} (h : Pids φ w) (hψ : φ w → ψ w) : Pids ψ w :=
  ⟨h.exact, h.handles, h.old, hψ h.fact⟩

/-- The rule for a call that aims at the child of a handle. -/
theorem Pids.aim {w : World} {e : Event} {s : Sexp} {pid : ℕ} (hφ : Steady φ)
    (h : Pids (Aiming φ s pid) w) (he : e.aim = some (s, pid)) (hstored : ∀ s n, e ≠ .stored s n) :
    Pids (Aiming φ s pid) (w.record e) := by
  have hnew : ∀ e' ∈ [e], ∀ s n, e' ≠ .stored s n :=
    fun e' he' => List.mem_singleton.mp he' ▸ hstored
  refine ⟨?_, fun s' h' hh' => (h.handles s' h' hh').append hnew, fun s' n hn => ?_,
    steady_aiming hφ s pid w _ [e] h.fact rfl hnew le_rfl⟩
  · refine exact_cons h.exact fun s' pid' haim => ?_
    rw [he] at haim
    obtain ⟨rfl, rfl⟩ := Prod.mk.inj (Option.some.inj haim)
    rcases h.fact.2 with ⟨hlt, hforked, hstored⟩ | ⟨hzero, hnone⟩
    · exact iff_of_true ⟨hlt, hforked⟩ ⟨pid, hstored⟩
    · refine iff_of_false (fun h => ?_) fun ⟨n, hn⟩ => hnone n hn
      rw [hzero] at h
      exact absurd h.1 (by omega)
  · exact h.old s' n (stored_of_append hnew (show _ ∈ [e] ++ w.log from hn))

/-- Whose child it is can be read off from what `Option.map` gives. -/
theorem handles_of_map_pid {w w' : World} {s : Sexp} {h' : Handle}
    (hsame : (w'.handles s).map Handle.pid = (w.handles s).map Handle.pid)
    (hh' : w'.handles s = some h') : ∃ h, w.handles s = some h ∧ h.pid = h'.pid := by
  rw [hh'] at hsame
  exact Option.map_eq_some_iff.mp hsame.symm

/-- The moves fill in no field and aim at nothing. -/
theorem aside_move {w w' : World} {m : Move} (hmove : w.move m = some w') : Aside w w' := by
  refine move_keeps (P := Aside w) ?_ ?_ ?_ ?_ w m w' (.refl w) hmove
  · exact fun w₁ pid stat h _ => h.trans (.of_eq rfl rfl rfl)
  · exact fun w₁ h _ _ => h.trans (.record w₁ rfl)
  · intro w₁ node wp w₂ h _ hwait _
    have hwaited : Aside w₁ w₂ := by
      obtain rfl | ⟨p, rfl⟩ := waitNohang_eq_setProc hwait
      · exact .refl _
      · exact .of_eq rfl rfl rfl
    obtain ⟨closes, hlog, hcloses⟩ := log_childExited w₂ node wp
    refine (h.trans hwaited).trans ⟨sexps_childExited w₂ node wp, fun s h' hh' => ?_, closes, hlog,
      fun e he => ?_⟩
    · exact handles_of_map_pid (pid_childExited w₂ node wp s) hh'
    · obtain ⟨site, fd, before, rfl⟩ := hcloses e he
      rfl
  · exact fun w₁ kept h _ => h.trans (.of_eq rfl rfl rfl)

/-- The exit of a child keeps the invariant, and what is known of the fields. -/
theorem kept_pids (hφ : Steady φ) : Kept World.move Exact (Pids φ) where
  move _ _ _ hw hmove := hw.aside hφ (aside_move hmove)
  safe _ hw := hw.exact

variable {α ρ : Type}

/-- An action whose steps fill in no field and aim at nothing. -/
def AsideAct (a : Act ρ) : Prop := ∀ w c r w', a w c = some (r, w') → Aside w w'

/-- Actions that only note something down are aside. -/
theorem asideAct_of_noteAct {ρ : Type} (a : Act ρ) (h : NoteAct a) : AsideAct a :=
  fun w c r w' ha => aside_of_notes (h w c r w' ha)

/-- A `waitpid()` of a child collects it, and fills in nothing. -/
theorem aside_waitNohang {w w₁ : World} {pid : ℕ} {wp : WaitResult}
    (h : w.waitNohang pid = (wp, w₁)) : Aside w w₁ := by
  obtain rfl | ⟨p, rfl⟩ := waitNohang_eq_setProc h
  · exact .refl _
  · exact .of_eq rfl rfl rfl

/-- A `waitpid()` outside of `c_processx_kill()` aims at nothing. -/
theorem asideAct_waitpid {site : WaitSite} (hsite : site ≠ .killCheck ∧ site ≠ .killReap)
    (status : Sexp) (pid : ℕ) : AsideAct (waitpid site status pid) := by
  intro w c wp w' h
  obtain ⟨_, rfl⟩ | ⟨w₁, hwait, rfl⟩ := waitpid_cases h
  · exact .refl _
  · refine (aside_waitNohang hwait).trans (.record _ ?_)
    cases site <;> first | rfl | exact absurd rfl hsite.1 | exact absurd rfl hsite.2

/-- So does one that blocks. -/
theorem asideAct_waitpidBlocking {site : WaitSite}
    (hsite : site ≠ .killCheck ∧ site ≠ .killReap) (status : Sexp) (pid : ℕ) :
    AsideAct (waitpidBlocking site status pid) := by
  intro w c wp w' h
  obtain ⟨_, w₁, hwait, rfl⟩ := waitpidBlocking_cases h
  refine (aside_waitNohang hwait).trans (.record _ ?_)
  cases site <;> first | rfl | exact absurd rfl hsite.1 | exact absurd rfl hsite.2

/-- A `kill()` outside of `c_processx_kill()` and its wait aims at nothing. -/
theorem asideAct_kill {site : KillSite} (hsite : site ≠ .kill ∧ site ≠ .waitCheck) (status : Sexp)
    (target : ℤ) (sig : ℕ) : AsideAct (kill site status target sig) := by
  intro w c r w' h
  obtain rfl := kill_eq_record h
  refine .record w ?_
  cases site <;> first | rfl | exact absurd rfl hsite.1 | exact absurd rfl hsite.2

/-- Storing an exit status aims at nothing. -/
theorem asideAct_collectExitStatus (status : Sexp) (wp : WaitResult) :
    AsideAct (collectExitStatus status wp) := by
  rintro w c r w' ⟨⟩
  have hhandles : ∀ s h', (w.collectExitStatus status wp).handles s = some h' →
      ∃ h, w.handles s = some h ∧ h.pid = h'.pid := by
    intro s h' hh'
    rw [handles_collectExitStatus] at hh'
    split at hh'
    · obtain ⟨h, hh, rfl⟩ := Option.map_eq_some_iff.mp hh'
      refine ⟨h, hh, ?_⟩
      unfold Handle.collect
      split <;> rfl
    · exact ⟨h', hh', rfl⟩
  have hsexps : (w.collectExitStatus status wp).sexps = w.sexps := by
    obtain ⟨_, heq⟩ | ⟨fd, _, heq⟩ := collectExitStatus_cases w status wp <;> rw [heq] <;> rfl
  obtain hlog | ⟨fd, before, hlog⟩ := log_collectExitStatus w status wp
  · exact ⟨hsexps, hhandles, [], hlog, nofun⟩
  · exact ⟨hsexps, hhandles, [_], hlog, fun e he => List.mem_singleton.mp he ▸ rfl⟩

/-- A handle that is changed, but not its `pid` field, or that disappears. -/
theorem aside_setHandle {w : World} {status : Sexp} {o : Option Handle}
    (ho : ∀ h', o = some h' → ∃ h, w.handles status = some h ∧ h.pid = h'.pid) :
    Aside w (w.setHandle status o) := by
  refine ⟨rfl, fun s h' hh' => ?_, [], rfl, nofun⟩
  by_cases hs : s = status
  · subst hs
    exact ho h' (by simpa [World.setHandle] using hh')
  · exact ⟨h', by simpa [World.setHandle, hs] using hh', rfl⟩

/-- The wait pipe of a handle is not its `pid` field. -/
theorem asideAct_clearWaitpipe (status : Sexp) : AsideAct (clearWaitpipe status) := by
  rintro w c r w' ⟨⟩
  refine aside_setHandle fun h' hh' => ?_
  obtain ⟨h, hh, rfl⟩ := Option.map_eq_some_iff.mp hh'
  exact ⟨h, hh, rfl⟩

/-- Nor is a new one. -/
theorem asideAct_makeWaitpipe (status : Sexp) : AsideAct (makeWaitpipe status) := by
  intro w c made w' h
  obtain ⟨_, rfl⟩ | ⟨r, wr, handle, _, hh, _, _, _, rfl⟩ := makeWaitpipe_cases h
  · exact .refl _
  · have hset : Aside w (w.setHandle status
        (some { handle with waitpipe0 := some r, waitpipe1 := some wr })) :=
      aside_setHandle fun h' hh' => ⟨handle, hh, by rw [← Option.some.inj hh']⟩
    exact hset.trans (.of_eq rfl rfl rfl)

/-- The exits of a context are taken off. -/
theorem asideAct_callOnExit : AsideAct callOnExit := by
  intro w c registered w' h
  obtain ⟨_, rfl⟩ | ⟨frame, frames, _, _, rfl⟩ := callOnExit_cases h
  · exact .record w rfl
  · exact .of_eq rfl rfl rfl

/-- The numbers of a wait pipe are put on the context. -/
theorem asideAct_saveWaitpipe (r wr : ℕ) : AsideAct (saveWaitpipe r wr) := by
  intro w c u w' h
  unfold saveWaitpipe at h
  split at h <;> cases h
  · exact .of_eq rfl rfl rfl
  · exact .refl _

/-- A descriptor is closed. -/
theorem asideAct_closeFd (fd : ℕ) : AsideAct (closeFd fd) := by
  rintro w c r w' ⟨⟩
  exact .of_event rfl rfl rfl rfl

/-- A context is opened. -/
theorem asideAct_pushContext : AsideAct pushContext := by
  rintro w c r w' ⟨⟩
  exact .of_eq rfl rfl rfl

/-- A context is left. -/
theorem asideAct_popContext : AsideAct popContext := by
  rintro w c r w' ⟨⟩
  exact .of_eq rfl rfl rfl

/-- A node of the child list loses its handle. -/
theorem asideAct_clearNodeStatus (node : Node) : AsideAct (clearNodeStatus node) := by
  rintro w c r w' ⟨⟩
  split
  · exact aside_setHandle nofun
  · exact .refl w

/-- The child list is emptied. -/
theorem asideAct_clearChildList : AsideAct clearChildList := by
  rintro w c r w' ⟨⟩
  exact .of_eq rfl rfl rfl

/-- A handle is freed, and a handle that is gone has no field to be filled in. -/
theorem asideAct_handleDestroy (status : Sexp) : AsideAct (handleDestroy status) := by
  intro w c r w' h
  unfold handleDestroy at h
  have hset : Aside w (w.setHandle status none) := aside_setHandle nofun
  dsimp only at h
  split at h <;> cases h
  · exact hset
  · exact hset.trans (.of_event rfl rfl rfl rfl)

/-- Garbage collection picks objects, and aims at nothing. -/
theorem asideAct_collectGarbage (inUse : Option Sexp) : AsideAct (collectGarbage inUse) := by
  intro w c dead w' h
  unfold collectGarbage at h
  cases c with
  | dead statuses =>
    dsimp only at h
    split at h
    · cases h
    · cases h
      exact .of_event rfl rfl rfl rfl
  | _ => cases h

/-- A fork makes a child, whose number is not stored yet. -/
theorem asideAct_fork (status : Sexp) : AsideAct (fork status) := by
  intro w c child w' h
  unfold fork at h
  cases c with
  | pid n =>
    dsimp only at h
    split at h
    · cases h
      have hproc : Aside w (w.setProc n .running) := .of_eq rfl rfl rfl
      exact hproc.trans (.record _ rfl)
    · cases h
  | fail =>
    cases h
    exact .refl w
  | _ => cases h

/-- The descriptor of a pseudo terminal is opened. -/
theorem asideAct_openPtyChild (status : Sexp) (pty : Bool) : AsideAct
    (openPtyChild status pty) := by
  intro w c u w' h
  unfold openPtyChild at h
  split at h
  next fd handle hh =>
    split at h
    · cases h
      have hset : Aside w (w.setHandle status (some { handle with ptyChildFd := some fd })) :=
        aside_setHandle fun h' hh' => ⟨handle, hh, by rw [← Option.some.inj hh']⟩
      exact hset.trans (.of_eq rfl rfl rfl)
    · cases h
  next =>
    cases h
    refine aside_setHandle fun h' hh' => ?_
    obtain ⟨handle, hh, rfl⟩ := Option.map_eq_some_iff.mp hh'
    exact ⟨handle, hh, rfl⟩

/-- The signal is blocked for the fork. -/
theorem asideAct_blockForFork : AsideAct blockForFork := by
  rintro w c r w' ⟨⟩
  exact .of_eq rfl rfl rfl

/-- The signal is unblocked after a fork that failed. -/
theorem asideAct_unblockAfterFailure : AsideAct unblockAfterFailure := by
  rintro w c r w' ⟨⟩
  have hopened : Aside w
      { w with blocked := false, critical := false, log := .unblocked :: w.log } :=
    .of_event rfl rfl rfl rfl
  exact hopened.trans (.of_event rfl rfl rfl rfl)

/-- An R error may jump out here. -/
theorem asideAct_leaves : AsideAct leaves := by
  intro w c left w' h
  unfold leaves at h
  cases c <;> cases h <;> exact .of_eq rfl rfl rfl

/-- The child is put on the child list. -/
theorem asideAct_linkChild (status : Sexp) (pid : ℕ) : AsideAct (linkChild status pid) := by
  rintro w c r w' ⟨⟩
  exact .of_event rfl rfl rfl rfl

/-- Programs that aim at the right targets, if the fields are filled in. -/
abbrev Aims (P : World → Prop) (p : Call α) (Q : Except String α → World → Prop) : Prop :=
  Ensures World.move Exact P p Q

/-- A program that aims at nothing. -/
theorem aims_aside (hφ : Steady φ) {p : Call α} (hp : p.Each AsideAct) :
    Aims (Pids φ) p (fun _ => Pids φ) :=
  Ensures.each (kept_pids hφ) (hp.mono fun _ ha w c r w' hw h => hw.aside hφ (ha w c r w' h))

/-- An action that aims at nothing. -/
theorem Aims.step (hφ : Steady φ) {a : Act ρ} (ha : AsideAct a) {f : ρ → Call α}
    {Q : Except String α → World → Prop} (hf : ∀ r, Aims (Pids φ) (f r) Q) :
    Aims (Pids φ) (Prog.lift a >>= f) Q :=
  Ensures.step (kept_pids hφ) (fun _ => Pids φ)
    (fun w c r w' hw h => hw.aside hφ (ha w c r w' h)) hf

/-- The handle is read. -/
theorem Aims.readHandle (hφ : Steady φ) {s : Sexp} {f : Option Handle → Call α}
    {Q : Except String α → World → Prop} (hnone : Aims (Pids φ) (f none) Q)
    (hsome : ∀ h : Handle, Aims (Pids (Aiming φ s h.pid)) (f (some h)) Q) :
    Aims (Pids φ) (Prog.lift (readHandle s) >>= f) Q := by
  refine Ensures.step (kept_pids hφ)
    (fun handle w => Pids φ w ∧ ∀ h, handle = some h → PidFact s h.pid w.log) ?_ fun handle => ?_
  · rintro w c handle w' hw ⟨⟩
    exact ⟨hw, hw.handles s⟩
  cases handle with
  | none => exact hnone.conseq (fun _ hw => hw.1) fun _ _ hw => hw
  | some h =>
    refine (hsome h).conseq (fun _ hw => ?_) fun _ _ hw => hw
    exact hw.1.mono fun hfact => ⟨hfact, hw.2 h rfl⟩

/-- In the end less has to be known. -/
theorem aims_of_aiming {s : Sexp} {pid : ℕ} {p : Call α} {Q : Except String α → World → Prop}
    (h : Aims (Pids φ) p Q) : Aims (Pids (Aiming φ s pid)) p Q :=
  h.conseq (fun _ hw => hw.mono And.left) fun _ _ hw => hw

/-- The end of a call aims at nothing. -/
theorem aims_unblockAndReturn (hφ : Steady φ) (result : α) :
    Aims (Pids φ) (unblockAndReturn result) (fun _ => Pids φ) :=
  aims_aside hφ (unblockAndReturn_each asideAct_of_noteAct result)

/-- Nor does its error exit. -/
theorem aims_unblockAndThrow (hφ : Steady φ) (msg : String) :
    Aims (Pids φ) (unblockAndThrow msg : Call α) (fun _ => Pids φ) :=
  aims_aside hφ (unblockAndThrow_each asideAct_of_noteAct msg)

/-- A kill that is about the child. -/
theorem aim_kill (hφ : Steady φ) {site : KillSite} {s : Sexp} {pid sig : ℕ} {target : ℤ}
    {w w' : World} {c : Choice} {r : KillResult} (hsite : site = .kill ∨ site = .waitCheck)
    (htarget : target.natAbs = pid) (hw : Pids (Aiming φ s pid) w)
    (hkill : kill site s target sig w c = some (r, w')) : Pids (Aiming φ s pid) w' := by
  obtain rfl := kill_eq_record hkill
  refine hw.aim hφ ?_ nofun
  rw [← htarget]
  rcases hsite with rfl | rfl <;> rfl

/-- The loop of a wait aims at the child of its handle. -/
theorem pollLoop_aims (hφ : Steady φ) (s : Sexp) (pid r wr pipe : ℕ) (timeout : ℤ) (rounds : ℕ)
    (timeleft : ℤ) :
    Aims (Pids (Aiming φ s pid)) (pollLoop s pid r wr pipe timeout rounds timeleft)
      (fun _ => Pids (Aiming φ s pid)) := by
  have hφ' := steady_aiming hφ s pid
  refine Ensures.each (kept_pids hφ') (pollLoop_each ?_ ?_ r wr pipe timeout rounds timeleft)
  · exact fun a ha w c r w' hw h => hw.aside hφ' (aside_of_notes (ha w c r w' h))
  · exact fun w c r w' hw hkill => aim_kill hφ (Or.inr rfl) (Int.natAbs_natCast pid) hw hkill

/-- A wait aims at the child of its handle, if it aims at all. -/
theorem cProcessxWait_aims (hφ : Steady φ) (rounds : ℕ) (s : Sexp) (timeout : ℤ) :
    Aims (Pids φ) (cProcessxWait rounds s timeout) (fun _ => Pids φ) := by
  refine Aims.step hφ asideAct_callOnExit fun registered => ?_
  cases registered with
  | false => exact aims_aside hφ (p := .throw _) trivial
  | true =>
    refine Aims.step hφ (asideAct_of_noteAct _ noteAct_blockSigchld) fun old => ?_
    have hstop : ∀ {a : Act Unit} {p : Call Bool}, NoteAct a → p.Each AsideAct →
        Aims (Pids φ) (Prog.lift a >>= fun _ => p) (fun _ => Pids φ) :=
      fun ha hp => Aims.step hφ (asideAct_of_noteAct _ ha) fun _ => aims_aside hφ hp
    refine Aims.readHandle hφ (hstop (noteAct_procmaskSet old) trivial) fun h => ?_
    have hφ' := steady_aiming hφ s h.pid
    dsimp only
    split
    · exact aims_of_aiming (hstop (noteAct_procmaskSet old) trivial)
    · refine Aims.step hφ' (asideAct_of_noteAct _ noteAct_setupSigchld) fun _ => ?_
      refine Aims.step hφ' (asideAct_of_noteAct _ noteAct_blockSigchld) fun _ => ?_
      refine Aims.step hφ' (asideAct_makeWaitpipe s) fun made => ?_
      cases made with
      | none => exact aims_of_aiming (hstop (noteAct_restoreAfterFailure old) trivial)
      | some ends =>
        obtain ⟨r, wr, pipe⟩ := ends
        refine Aims.step hφ' (asideAct_saveWaitpipe r wr) fun _ => ?_
        refine Aims.step hφ' (asideAct_of_noteAct _ noteAct_unblockSigchld) fun _ => ?_
        refine (pollLoop_aims hφ s h.pid r wr pipe timeout rounds timeout).bind
          (fun answer => aims_of_aiming ?_) fun _ _ hw => hw.mono And.left
        exact aims_aside hφ
          (endWait_each asideAct_of_noteAct (asideAct_clearWaitpipe s) h.pid old answer)

/-- A signal of `c_processx_kill()` goes to the child of its handle. -/
theorem killWith_aims (hφ : Steady φ) {s : Sexp} {pid sig : ℕ} {next : Call Bool}
    (hnext : Aims (Pids (Aiming φ s pid)) next (fun _ => Pids φ)) :
    Aims (Pids (Aiming φ s pid)) (killWith s pid sig next) (fun _ => Pids φ) := by
  refine Ensures.step (kept_pids (steady_aiming hφ s pid)) (fun _ => Pids (Aiming φ s pid))
    (fun _ _ _ _ hw hkill => aim_kill hφ (Or.inl rfl) (by simp) hw hkill) fun ret => ?_
  cases ret with
  | gone => exact aims_of_aiming (aims_unblockAndReturn hφ false)
  | error => exact aims_of_aiming (aims_unblockAndThrow hφ _)
  | ok => exact hnext

/-- The last part of a kill aims at the child of its handle. -/
theorem killHard_aims (hφ : Steady φ) (s : Sexp) (pid : ℕ) :
    Aims (Pids (Aiming φ s pid)) (killHard s pid) (fun _ => Pids φ) := by
  have hφ' := steady_aiming hφ s pid
  refine killWith_aims hφ (Ensures.step (kept_pids hφ') (fun _ => Pids φ) ?_ fun wp => ?_)
  · intro w c wp w' hw hwait
    obtain ⟨_, w₁, hnohang, rfl⟩ := waitpidBlocking_cases hwait
    have hw₁ := hw.aside hφ' (aside_waitNohang hnohang)
    exact (hw₁.aim hφ (e := .waitpid .killReap s pid _) rfl nofun).mono And.left
  · refine Aims.step hφ (asideAct_collectExitStatus s wp) fun _ => ?_
    refine Aims.step hφ (asideAct_of_noteAct _ (noteAct_readExitcode s)) fun exitcode => ?_
    exact aims_unblockAndReturn hφ _

/-- So does a kill with some grace. -/
theorem killGracefully_aims (hφ : Steady φ) (rounds : ℕ) (s : Sexp) (pid : ℕ) (graceMs : ℤ) :
    Aims (Pids (Aiming φ s pid)) (killGracefully rounds s pid graceMs) (fun _ => Pids φ) := by
  have hφ' := steady_aiming hφ s pid
  refine killWith_aims hφ ?_
  refine (cProcessxWait_aims hφ' rounds s graceMs).bind (fun finished => ?_)
    fun _ _ hw => hw.mono And.left
  cases finished with
  | true =>
    refine Aims.step hφ' (asideAct_of_noteAct _ (noteAct_readExitcode s)) fun exitcode => ?_
    exact aims_of_aiming (aims_unblockAndReturn hφ _)
  | false => exact killHard_aims hφ s pid

/-- So does `c_processx_kill()`, which reads the field first. -/
theorem cProcessxKill_aims (hφ : Steady φ) (rounds : ℕ) (s : Sexp) (graceMs : ℤ) :
    Aims (Pids φ) (cProcessxKill rounds s graceMs) (fun _ => Pids φ) := by
  have hreturn := fun result : Bool => aims_unblockAndReturn hφ result
  refine Aims.step hφ (asideAct_of_noteAct _ noteAct_blockSigchld) fun _ => ?_
  refine Aims.readHandle hφ (hreturn false) fun h => ?_
  dsimp only
  split
  · exact aims_of_aiming (hreturn false)
  · refine Ensures.step (kept_pids (steady_aiming hφ s h.pid))
      (fun _ => Pids (Aiming φ s h.pid)) ?_ fun wp => ?_
    · intro w c wp w' hw hwait
      obtain ⟨_, rfl⟩ | ⟨w₁, hnohang, rfl⟩ := waitpid_cases hwait
      · exact hw
      · exact (hw.aside (steady_aiming hφ s h.pid) (aside_waitNohang hnohang)).aim hφ
          (e := .waitpid .killCheck s h.pid _) rfl nofun
    cases wp with
    | echild =>
      exact aims_of_aiming (Aims.step hφ (asideAct_collectExitStatus s _) fun _ => hreturn false)
    | error => exact aims_of_aiming (aims_unblockAndThrow hφ _)
    | exited stat => exact aims_of_aiming (hreturn false)
    | none =>
      dsimp only
      split
      · exact killGracefully_aims hφ rounds s h.pid graceMs
      · exact killHard_aims hφ s h.pid

/-- The exits of a context close descriptors. -/
theorem callExits_aside (exits : List (Option (ℕ × ℕ))) : (callExits exits).Each AsideAct := by
  induction exits with
  | nil => trivial
  | cons exit exits ih =>
    cases exit with
    | none => exact ih
    | some ends =>
      obtain ⟨r, wr⟩ := ends
      exact .step (asideAct_closeFd r) fun _ => .step (asideAct_closeFd wr) fun _ => ih

/-- A context adds nothing but exits to what its body does. -/
theorem withCleanupContext_aims (hφ : Steady φ) {body : Call α}
    (hbody : Aims (Pids φ) body (fun _ => Pids φ)) :
    Aims (Pids φ) (withCleanupContext body) (fun _ => Pids φ) := by
  refine Aims.step hφ asideAct_pushContext fun _ => hbody.attempt fun result => ?_
  refine Aims.step hφ asideAct_popContext fun exits => aims_aside hφ (.bind ?_ fun _ => ?_)
  · exact callExits_aside exits
  · cases result <;> trivial

/-- The finalizer of a handle aims at its child with the kill, and at nothing else. -/
theorem finalizer_aims (hφ : Steady φ) (rounds : ℕ) (s : Sexp) :
    Aims (Pids φ) (finalizer rounds s) (fun _ => Pids φ) := by
  refine Aims.step hφ (asideAct_of_noteAct _ (noteAct_readHandle s)) fun handle => ?_
  refine Aims.step hφ (asideAct_of_noteAct _ noteAct_blockSigchld) fun _ => ?_
  refine Aims.step hφ (asideAct_of_noteAct _ noteAct_freelistFree) fun _ => ?_
  refine Aims.step hφ (asideAct_of_noteAct _ noteAct_unblockSigchld) fun _ => ?_
  have hdestroy := aims_aside hφ (.lift (asideAct_handleDestroy s))
  cases handle with
  | none => exact aims_aside hφ (p := .ret ()) trivial
  | some h =>
    dsimp only
    split
    · exact (withCleanupContext_aims hφ (cProcessxKill_aims hφ rounds s _)).bind
        (fun _ => hdestroy) fun _ _ hw => hw
    · exact hdestroy

/-- So do some finalizers. -/
theorem runFinalizers_aims (hφ : Steady φ) (rounds : ℕ) (statuses : List Sexp) :
    Aims (Pids φ) (runFinalizers rounds statuses) (fun _ => Pids φ) := by
  induction statuses with
  | nil => exact aims_aside hφ (p := .ret ()) trivial
  | cons s statuses ih => exact (finalizer_aims hφ rounds s).attempt fun _ => ih

/-- Garbage may be collected at any such point. -/
theorem gcPoint_aims (hφ : Steady φ) (rounds : ℕ) (inUse : Option Sexp) :
    Aims (Pids φ) (gcPoint rounds inUse) (fun _ => Pids φ) :=
  Aims.step hφ (asideAct_collectGarbage inUse) fun dead => runFinalizers_aims hφ rounds dead

/-- The object of a handle exists. -/
def Made (s : Sexp) (w : World) : Prop := s < w.sexps

/-- An object that is made stays. -/
theorem steady_made (s : Sexp) : Steady (Made s) :=
  fun _ _ _ hw _ _ hsexps => Nat.lt_of_lt_of_le hw hsexps

/-- A fork has returned the number for the handle. -/
def ForkedFor (s : Sexp) (pid : ℕ) (w : World) : Prop :=
  Made s w ∧ 1 < pid ∧ .forked s pid ∈ w.log

/-- A fork that was stays. -/
theorem steady_forkedFor (s : Sexp) (pid : ℕ) : Steady (ForkedFor s pid) := by
  intro w w' new hw hlog hnew hsexps
  refine ⟨steady_made s w w' new hw.1 hlog hnew hsexps, hw.2.1, ?_⟩
  rw [hlog]
  exact List.mem_append_right _ hw.2.2

/-- Nothing more is known. -/
def Nothing (_ : World) : Prop := True

/-- Nothing stays true. -/
theorem steady_nothing : Steady Nothing := fun _ _ _ _ _ _ _ => trivial

/-- A new handle has no number yet. -/
theorem pids_makeHandle {cleanup : Bool} {cleanupGrace : ℤ} {w w' : World} {c : Choice}
    {made : Option Sexp} (hw : Pids Nothing w)
    (hmake : makeHandle cleanup cleanupGrace w c = some (made, w')) :
    Pids Nothing w' ∧ ∀ s, made = some s → Made s w' := by
  unfold makeHandle at hmake
  cases c with
  | ok =>
    cases hmake
    refine ⟨⟨hw.exact, fun s h hh => ?_, fun s n hn => ?_, trivial⟩, ?_⟩
    · by_cases hs : s = w.sexps
      · subst hs
        have heq : some (newHandle cleanup cleanupGrace) = some h := by
          simpa [World.setHandle] using hh
        obtain rfl := Option.some.inj heq
        exact Or.inr ⟨rfl, fun n hn => absurd (hw.old _ n hn) (Nat.lt_irrefl _)⟩
      · exact hw.handles s h (by simpa [World.setHandle, hs] using hh)
    · exact Nat.lt_succ_of_lt (hw.old s n hn)
    · rintro _ ⟨⟩
      exact Nat.lt_succ_self _
  | _ =>
    cases hmake
    refine ⟨hw, ?_⟩
    rintro _ ⟨⟩

/-- The `pid` field is filled in. -/
theorem pids_storePid {s : Sexp} {pid : ℕ} {w w' : World} {c : Choice} {u : Unit}
    (hw : Pids (ForkedFor s pid) w) (hstore : storePid s pid w c = some (u, w')) :
    Pids Nothing w' := by
  cases hstore
  obtain ⟨hmade, hlt, hforked⟩ := hw.fact
  refine ⟨exact_cons hw.exact nofun, fun s' h' hh' => ?_, fun s' n hn => ?_, trivial⟩
  · by_cases hs : s' = s
    · subst hs
      have hset : (w.handles s').map (fun h => { h with pid := pid }) = some h' := by
        simpa [World.setHandle, World.record] using hh'
      obtain ⟨h, _, rfl⟩ := Option.map_eq_some_iff.mp hset
      exact Or.inl ⟨hlt, List.mem_cons_of_mem _ hforked, List.mem_cons_self⟩
    · have hold : w.handles s' = some h' := by
        simpa [World.setHandle, World.record, hs] using hh'
      rcases hw.handles s' h' hold with ⟨hlt', hforked', hstored'⟩ | ⟨hzero, hnone⟩
      · exact Or.inl ⟨hlt', List.mem_cons_of_mem _ hforked', List.mem_cons_of_mem _ hstored'⟩
      · refine Or.inr ⟨hzero, fun n hn => ?_⟩
        rcases List.mem_cons.mp hn with heq | hn
        · cases heq
          exact hs rfl
        · exact hnone n hn
  · rcases List.mem_cons.mp hn with heq | hn
    · cases heq
      exact hmade
    · exact hw.old s' n hn

/-- Knowing less in the end. -/
theorem aims_to_nothing (hφ : Steady φ) {p : Call α} (hp : p.Each AsideAct) :
    Aims (Pids φ) p (fun _ => Pids Nothing) :=
  (aims_aside hφ hp).conseq (fun _ hw => hw) fun _ _ hw => hw.mono fun _ => trivial

/-- Garbage may be collected before the rest. -/
theorem Aims.afterGc (hφ : Steady φ) {rounds : ℕ} {inUse : Option Sexp} {f : Unit → Call α}
    (hf : Aims (Pids φ) (f ()) (fun _ => Pids Nothing)) :
    Aims (Pids φ) (gcPoint rounds inUse >>= f) (fun _ => Pids Nothing) :=
  (gcPoint_aims hφ rounds inUse).bind (fun _ => hf) fun _ _ hw => hw.mono fun _ => trivial

/-- The end of `processx_exec()` fills in the field, if the child has started. -/
theorem finishExec_aims (rounds : ℕ) (s : Sexp) (pid : ℕ) (started : Bool) :
    Aims (Pids (ForkedFor s pid)) (finishExec rounds s pid started) (fun _ => Pids Nothing) := by
  have hφ := steady_forkedFor s pid
  refine Aims.afterGc hφ (Aims.step hφ (asideAct_of_noteAct _ noteAct_sysCall) fun ok => ?_)
  split
  · exact aims_to_nothing hφ (p := .throw _) trivial
  · split
    · refine Ensures.step (kept_pids hφ) (fun _ => Pids Nothing)
        (fun _ _ _ _ hw hstore => pids_storePid hw hstore) fun _ => ?_
      exact aims_aside steady_nothing (p := .ret _) trivial
    · exact aims_to_nothing hφ (p := .throw _) trivial

/-- The wait for the message of the child aims at nothing. -/
theorem awaitExec_aims (rounds : ℕ) (s : Sexp) (pid : ℕ) :
    Aims (Pids (ForkedFor s pid)) (awaitExec rounds s pid) (fun _ => Pids Nothing) := by
  have hφ := steady_forkedFor s pid
  have hwait : AsideAct (waitpidBlocking .exec s pid) :=
    asideAct_waitpidBlocking ⟨by decide, by decide⟩ s pid
  refine Aims.step hφ (asideAct_of_noteAct _ noteAct_readSignalPipe) fun r => ?_
  cases r with
  | eof => exact finishExec_aims rounds s pid true
  | errno => exact Aims.step hφ hwait fun _ => finishExec_aims rounds s pid false
  | epipe => exact Aims.step hφ hwait fun _ => finishExec_aims rounds s pid true
  | other => exact aims_to_nothing hφ (p := .throw _) trivial

/-- Nor does the node of the child list. -/
theorem linkAndAwait_aims (rounds : ℕ) (s : Sexp) (pid : ℕ) :
    Aims (Pids (ForkedFor s pid)) (linkAndAwait rounds s pid) (fun _ => Pids Nothing) := by
  have hφ := steady_forkedFor s pid
  refine Aims.afterGc hφ (Aims.step hφ asideAct_leaves fun left => ?_)
  cases left with
  | true => exact aims_to_nothing hφ (p := .throw _) trivial
  | false =>
    refine Aims.step hφ (asideAct_linkChild s pid) fun _ => ?_
    refine Aims.step hφ (asideAct_of_noteAct _ noteAct_unblockSigchld) fun _ => ?_
    exact awaitExec_aims rounds s pid

/-- Behind the fork the child gets its node, and its number is stored. -/
theorem addChild_aims (rounds : ℕ) (s : Sexp) (pid : ℕ) (pty : Bool) :
    Aims (Pids (ForkedFor s pid)) (addChild rounds s pid pty) (fun _ => Pids Nothing) := by
  have hφ := steady_forkedFor s pid
  refine Aims.afterGc hφ (Aims.step hφ asideAct_leaves fun left => ?_)
  cases left with
  | true => exact aims_to_nothing hφ (p := .throw _) trivial
  | false =>
    refine Aims.step hφ (asideAct_openPtyChild s pty) fun _ => ?_
    refine Aims.step hφ (asideAct_of_noteAct _ noteAct_sysCall) fun ok => ?_
    cases ok with
    | false => exact aims_to_nothing hφ (.step asideAct_unblockAfterFailure fun _ => trivial)
    | true => exact linkAndAwait_aims rounds s pid

/-- The pipes of the child are made. -/
theorem makeSocketpairs_aside (outputs : List Output) :
    (makeSocketpairs outputs).Each AsideAct := by
  induction outputs with
  | nil => trivial
  | cons output outputs ih =>
    rw [makeSocketpairs]
    split
    · refine .step (asideAct_of_noteAct _ noteAct_sysCall) fun ok => ?_
      split
      · trivial
      · exact ih
    · exact ih

/-- From the pipes of the child to its start. -/
theorem startChild_aims (rounds : ℕ) (s : Sexp) (connections : List Output) (pty : Bool) :
    Aims (Pids (Made s)) (startChild rounds s connections pty) (fun _ => Pids Nothing) := by
  have hφ := steady_made s
  refine Aims.afterGc hφ (Aims.step hφ (asideAct_of_noteAct _ (noteAct_openPty pty)) fun ok => ?_)
  split
  · exact aims_to_nothing hφ (p := .throw _) trivial
  · refine (aims_aside hφ (makeSocketpairs_aside connections)).bind (fun _ => ?_)
      fun _ _ hw => hw.mono fun _ => trivial
    refine Aims.step hφ asideAct_blockForFork fun _ => ?_
    refine Ensures.step (kept_pids hφ) (fun child w => Pids (Made s) w ∧
      ∀ pid, child = some pid → 1 < pid ∧ .forked s pid ∈ w.log) ?_ fun child => ?_
    · intro w c child w' hw hfork
      refine ⟨hw.aside hφ (asideAct_fork s w c child w' hfork), ?_⟩
      rintro pid rfl
      unfold fork at hfork
      cases c with
      | pid n =>
        dsimp only at hfork
        split at hfork
        next hn =>
          cases hfork
          exact ⟨hn.1, List.mem_cons_self⟩
        next => cases hfork
      | _ => cases hfork
    cases child with
    | none =>
      refine Ensures.conseq (R := Pids (Made s)) ?_ (fun _ hw => hw.1) fun _ _ hw => hw
      exact aims_to_nothing hφ (.step asideAct_unblockAfterFailure
        fun _ => trivial)
    | some pid =>
      refine (addChild_aims rounds s pid pty).conseq (fun w hw => ?_) fun _ _ hw => hw
      exact hw.1.mono fun hmade => ⟨hmade, hw.2 pid rfl⟩

/-- `processx_exec()` aims at nothing, but for the finalizers that run meanwhile. -/
theorem processxExec_aims (rounds : ℕ) (connections : List Output) (pty cleanup : Bool)
    (cleanupGrace : ℤ) :
    Aims (Pids Nothing) (processxExec rounds connections pty cleanup cleanupGrace)
      (fun _ => Pids Nothing) := by
  refine Aims.afterGc steady_nothing ?_
  refine Aims.step steady_nothing (asideAct_of_noteAct _ noteAct_sysCall) fun ok => ?_
  split
  · exact aims_aside steady_nothing (p := .throw _) trivial
  · refine Aims.step steady_nothing (asideAct_of_noteAct _ noteAct_setupSigchld) fun _ => ?_
    refine Ensures.step (kept_pids steady_nothing)
      (fun made w => Pids Nothing w ∧ ∀ s, made = some s → Made s w)
      (fun _ _ _ _ hw hmake => pids_makeHandle hw hmake) fun made => ?_
    cases made with
    | none =>
      exact (aims_aside steady_nothing (p := .throw _) trivial).conseq (fun _ hw => hw.1)
        fun _ _ hw => hw
    | some s =>
      refine (startChild_aims rounds s connections pty).conseq (fun w hw => ?_) fun _ _ hw => hw
      exact hw.1.mono fun _ => hw.2 s rfl

/-- Every call aims at the children of its handle. -/
theorem processCall_aims (rounds : ℕ) (call : ProcessCall) :
    Aims (Pids Nothing) (call.run rounds) (fun _ => Pids Nothing) := by
  have hφ := steady_nothing
  have hkept := kept_pids hφ
  have hnote : ∀ {ρ : Type} (a : Act ρ), NoteAct a → AsideAct a := asideAct_of_noteAct
  cases call with
  | isAlive s =>
    exact ensures_dropResult hkept (aims_aside hφ (processxIsAlive_each hnote
      (asideAct_waitpid ⟨by decide, by decide⟩ s) (asideAct_collectExitStatus s)))
  | getExitStatus s =>
    exact ensures_dropResult hkept (aims_aside hφ (processxGetExitStatus_each hnote
      (asideAct_waitpid ⟨by decide, by decide⟩ s) (asideAct_collectExitStatus s)))
  | signal s sig group =>
    exact ensures_dropResult hkept (aims_aside hφ (processxSignal_each hnote
      (fun target => asideAct_kill ⟨by decide, by decide⟩ s target sig)
      (asideAct_waitpid ⟨by decide, by decide⟩ s) (asideAct_collectExitStatus s) group))
  | kill s graceMs =>
    exact ensures_dropResult hkept
      (withCleanupContext_aims hφ (cProcessxKill_aims hφ rounds s graceMs))
  | wait s timeout =>
    exact ensures_dropResult hkept
      (withCleanupContext_aims hφ (cProcessxWait_aims hφ rounds s timeout))
  | unload =>
    exact aims_aside hφ (unloadCleanup_each hnote
      (fun s target => asideAct_kill ⟨by decide, by decide⟩ s target 9)
      (asideAct_waitpidBlocking ⟨by decide, by decide⟩) asideAct_clearNodeStatus
      asideAct_clearChildList)

/-- Every event of a session does. -/
theorem systemCall_aims (rounds : ℕ) (call : SystemCall) :
    Aims (Pids Nothing) (call.run rounds) (fun _ => Pids Nothing) := by
  cases call with
  | exec connections pty cleanup cleanupGrace =>
    exact ensures_dropResult (kept_pids steady_nothing)
      (processxExec_aims rounds connections pty cleanup cleanupGrace)
  | process call => exact processCall_aims rounds call
  | gc => exact gcPoint_aims steady_nothing rounds none

/-- **Targets.** At any moment of any run that begins without handles: every number that
`c_processx_kill()`, and so the finalizer, has waited for or signalled is greater than one
and was returned by a fork for the same handle, if and only if no such call was about a
handle whose `pid` field was not filled in. -/
theorem targets_right_iff (rounds : ℕ) (calls : List SystemCall) {w w' : World}
    {o : Option (Except String Unit)} (hhandles : ∀ s, w.handles s = none) (hlog : w.log = [])
    (hrun : Runs World.move (runSystem rounds calls) w o w') :
    TargetsRight w'.log ↔ PidsStored w'.log := by
  have hstart : Pids Nothing w := by
    refine ⟨?_, fun s h hh => ?_, fun s n hn => ?_, trivial⟩
    · rw [Exact, hlog]
      exact Iff.rfl
    · rw [hhandles] at hh
      cases hh
    · rw [hlog] at hn
      cases hn
  exact (runSystem_keeps (kept_pids steady_nothing) rounds (systemCall_aims rounds) calls w o w'
    hstart hrun).1

/-- A process that is started and killed. -/
theorem targets_right_iff_killed :
    ∃ w', Runs World.move (runSystem 1 [.exec [] false true 0, .process (.kill 0 0)]) {}
        none w' ∧ Event.kill .kill 0 (-100) 9 .running ∈ w'.log ∧ PidsStored w'.log ∧
      (TargetsRight w'.log ↔ PidsStored w'.log) := by
  have hruns : ∃ w', Runs World.move (runSystem 1 [.exec [] false true 0, .process (.kill 0 0)])
      {} none w' ∧ w'.log = [.kill .kill 0 (-100) 9 .running,
        .waitpid .killCheck 0 100 .running, .stored 0 100, .finalizers false [], .unblocked,
        .linked 0 100, .finalizers true [], .finalizers true [], .forked 0 100,
        .finalizers false [], .finalizers false []] :=
    exists_run_of_drive (acts [.dead [], .ok, .ok, .ok, .dead [], .ok, .ok, .pid 100, .dead [], .ok,
      .ok, .ok, .dead [], .ok, .ok, .ok, .ok, .dead [], .ok, .ok] ++ acts [.ok, .ok, .ok, .ok, .ok])
      _ (by decide)
  obtain ⟨w', hrun, hlog⟩ := hruns
  refine ⟨w', hrun, by rw [hlog]; decide, ?_, targets_right_iff 1 _ (fun _ => rfl) rfl hrun⟩
  rw [hlog]
  simp [PidsStored, Event.aim]

/-- A process that cannot be started, while some other child runs in R's own process group:
the finalizer kills the process group. -/
theorem targets_wrong_after_failure :
    ∃ w', Runs World.move (runSystem 1 [.exec [.str "|"] false true 0, .gc])
        { procs := fun n => if n = 0 then .running else .absent } none w' ∧
      Event.waitpid .killCheck 0 0 .running ∈ w'.log ∧
      Event.kill .kill 0 0 9 .running ∈ w'.log ∧ ¬ TargetsRight w'.log := by
  have hruns : ∃ w', Runs World.move (runSystem 1 [.exec [.str "|"] false true 0, .gc])
      { procs := fun n => if n = 0 then .running else .absent } none w' ∧ w'.log =
        [.kill .kill 0 0 9 .running, .waitpid .killCheck 0 0 .running, .unblocked, .freelistFreed,
          .finalizers false [0], .finalizers false [], .finalizers false []] :=
    exists_run_of_drive (acts [.dead [], .ok, .ok, .ok, .dead [], .ok, .fail, .dead [0], .ok, .ok,
      .ok, .ok, .ok, .ok, .ok, .ok, .ok]) _ (by decide)
  obtain ⟨w', hrun, hlog⟩ := hruns
  refine ⟨w', hrun, ?_⟩
  rw [hlog]
  exact ⟨by decide, by decide, fun h => absurd (h.1 0 0 rfl).1 (by decide)⟩

end Processx
