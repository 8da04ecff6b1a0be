import Processx.Unix.Tracking

/-!
# Exit codes and signals in a session

Every call of a session keeps track of the children. From this follow two statements
about any moment of any session: which exit codes are stored, and which signals are sent
to children that have not been reaped.
-/

namespace Processx

open Interruptible

/-- Every signal went to a child that had not been reaped. -/
def KillsRight (log : List Event) : Prop :=
  ∀ site s target sig before, .kill site s target sig before ∈ log → sig ≠ 0 →
    before.isReaped = false

/-- The ways in which a signal can be sent too late: a wait inside of a kill times out, and
the child is reaped before the mask is restored; `processx_signal()` signals a child whose
status was dropped; the package is unloaded with a reaped child in the list. -/
def Orderly : List Event → Prop
  | [] => True
  | .waitEnded true .timeout _ before :: log => before.isReaped = false ∧ Orderly log
  | .kill .signal s _ sig _ :: log => (sig ≠ 0 → dropped s log = false) ∧ Orderly log
  | .unloading stale :: log => stale = [] ∧ Orderly log
  | _ :: log => Orderly log

/-- A run in which nothing of that has happened has not begun with it. -/
theorem Orderly.tail {e : Event} {log : List Event} (h : Orderly (e :: log)) : Orderly log := by
  unfold Orderly at h
  split at h
  all_goals simp_all

/-- The older part of an orderly log is orderly. -/
theorem Orderly.of_append {new log : List Event} (h : Orderly (new ++ log)) : Orderly log := by
  induction new with
  | nil => exact h
  | cons e new ih => exact ih h.tail

/-- What holds at any moment outside of a call, and, with an exempt handle, inside. -/
structure Truthful (exempt : Option Sexp) (w : World) : Prop where
  tracked : Tracked exempt w
  kills : Orderly w.log → KillsRight w.log

/-- What holds at any moment of a run. -/
def Watched (w : World) : Prop := ∃ exempt, Truthful exempt w

/-- Is an event a signal? -/
def Event.isSignal : Event → Bool
  | .kill _ _ _ sig _ => decide (sig ≠ 0)
  | _ => false

/-- Other events than signals. -/
theorem KillsRight.append {new log : List Event} (h : KillsRight log)
    (hnew : ∀ e ∈ new, e.isSignal = false) : KillsRight (new ++ log) := by
  intro site s target sig before hmem hsig
  rcases List.mem_append.mp hmem with hmem | hmem
  · have hnot := hnew _ hmem
    exact absurd (of_decide_eq_false hnot) (not_not_intro hsig)
  · exact h site s target sig before hmem hsig

/-- The rule for steps that send no signal. -/
theorem Truthful.step {exempt exempt' : Option Sexp} {w w' : World} (h : Truthful exempt w)
    (ht : Tracked exempt' w') (new : List Event) (hlog : w'.log = new ++ w.log)
    (hnew : ∀ e ∈ new, e.isSignal = false) : Truthful exempt' w' := by
  refine ⟨ht, fun horderly => ?_⟩
  rw [hlog] at horderly ⊢
  exact (h.kills horderly.of_append).append hnew

/-- The rule for steps that change nothing of what is tracked. -/
theorem Truthful.of_eq {exempt : Option Sexp} {w w' : World} (h : Truthful exempt w)
    (hprocs : w'.procs = w.procs) (hhandles : w'.handles = w.handles)
    (hlist : w'.childList = w.childList) (hfree : w'.freeList = w.freeList)
    (hlog : w'.log = w.log) : Truthful exempt w' := by
  refine h.step (h.tracked.same hprocs (fun s h' hh' => ⟨h', hhandles ▸ hh', rfl, rfl, rfl⟩)
    (fun s => by rw [hlog]) (by rw [hlist]; exact List.Subset.refl _)
    (by rw [hfree]; exact List.Subset.refl _)) [] hlog nofun

/-- Notes are no signals. -/
theorem Truthful.notes {exempt : Option Sexp} {w w' : World} (h : Truthful exempt w)
    (hnotes : Notes w w') : Truthful exempt w' := by
  obtain ⟨notes, hlog, hnew⟩ := hnotes.log
  refine h.step ?_ notes hlog fun e he => ?_
  · refine h.tracked.same hnotes.procs (fun s h' hh' => ⟨h', ?_, rfl, rfl, rfl⟩) (fun s => ?_)
      (by rw [hnotes.childList]; exact List.Subset.refl _) hnotes.freeList
    · rw [← hnotes.handles]
      exact hh'
    · rw [hlog]
      exact dropped_append_notes hnew s w.log
  · have hnote := hnew e he
    cases e <;> first | rfl | cases hnote

/-- The exit of a child keeps track of the children. -/
theorem kept_sound : Kept World.move Watched (Truthful none) where
  move := by
    apply move_keeps
    · exact fun w pid stat hw hrun => hw.step (hw.tracked.exit hrun) [] rfl nofun
    · refine fun w hw _ _ => hw.step ?_ [.handler _ _] rfl ?_
      · exact hw.tracked.same rfl (fun s h hh => ⟨h, hh, rfl, rfl, rfl⟩) (fun s => rfl)
          (List.Subset.refl _) (List.Subset.refl _)
      · exact fun e he => List.mem_singleton.mp he ▸ rfl
    · intro w node wp w₁ hw hnode hwait hwp
      obtain ⟨closes, hlog, hcloses⟩ := log_childExited w₁ node wp
      refine hw.step (hw.tracked.childExited hnode hwait hwp) closes ?_ fun e he => ?_
      · rw [hlog]
        obtain rfl | ⟨p, rfl⟩ := waitNohang_eq_setProc hwait <;> rfl
      · obtain ⟨site, fd, before, rfl⟩ := hcloses e he
        rfl
    · intro w kept hw hsub
      refine hw.step ?_ [] rfl nofun
      exact hw.tracked.same rfl (fun s h hh => ⟨h, hh, rfl, rfl, rfl⟩) (fun s => rfl) hsub.subset
        (List.Subset.refl _)
  safe w h := ⟨none, h⟩

/-- What holds while the signal is blocked. -/
structure Quietly (exempt : Option Sexp) (φ : World → Prop) (w : World) : Prop where
  blocked : w.blocked = true
  sound : Truthful exempt w
  fact : φ w

/-- Facts that the exit of a child does not change. -/
def AtExit (φ : World → Prop) : Prop :=
  ∀ w pid stat, φ w → w.procs pid = .running → φ (w.setProc pid (.zombie stat))

/-- So it does inside of a call, with a fact that it does not change. -/
theorem kept_quietly {exempt : Option Sexp} {φ : World → Prop} (hφ : AtExit φ) :
    Kept World.move Watched (Quietly exempt φ) where
  move := by
    rintro w m w' ⟨hblocked, hsound, hfact⟩ hmove
    obtain ⟨pid, stat, hrun, rfl⟩ := move_blocked hblocked hmove
    exact ⟨hblocked, hsound.step (hsound.tracked.exit hrun) [] rfl nofun,
      hφ w pid stat hfact hrun⟩
  safe w h := ⟨exempt, h.sound⟩

/-- A child that has been reaped does not exit again. -/
theorem atExit_reaped (pid : ℕ) : AtExit fun w => (w.procs pid).isReaped = true := by
  intro w pid' stat hreaped hrun
  change (if pid = pid' then _ else _ : Proc).isReaped = true
  split
  next heq =>
    rw [heq, hrun] at hreaped
    cases hreaped
  next => exact hreaped

/-- A child that exits has not been reaped. -/
theorem atExit_notReaped (pid : ℕ) : AtExit fun w => (w.procs pid).isReaped = false := by
  intro w pid' stat hreaped hrun
  change (if pid = pid' then _ else _ : Proc).isReaped = false
  split
  · rfl
  · exact hreaped

/-- The handle was read, and its child is not collected. -/
def Reading (s : Sexp) (h : Handle) (w : World) : Prop :=
  w.handles s = some h ∧ h.collected = false

/-- A handle that was read stays read. -/
theorem atExit_reading (s : Sexp) (h : Handle) : AtExit (Reading s h) := fun _ _ _ hw _ => hw

/-- The child was waited for, and the answer can be stored. -/
def Answered (s : Sexp) (h : Handle) (wp : WaitResult) (w : World) : Prop :=
  w.handles s = some h ∧ (w.procs h.pid).isReaped = true ∧ Storable w s h wp

/-- An answer of `waitpid()` stays good. -/
theorem atExit_answered (s : Sexp) (h : Handle) (wp : WaitResult) : AtExit (Answered s h wp) := by
  rintro w pid stat ⟨hh, hreaped, hstorable⟩ hrun
  refine ⟨hh, atExit_reaped h.pid w pid stat hreaped hrun, fun hcollected => ?_⟩
  have hne : h.pid ≠ pid := by
    rintro rfl
    rw [hrun] at hreaped
    cases hreaped
  have hprocs : (w.setProc pid (.zombie stat)).procs h.pid = w.procs h.pid := if_neg hne
  rw [hprocs]
  exact hstorable hcollected

/-- An event that is no signal and drops nothing. -/
theorem Truthful.record {exempt : Option Sexp} {w : World} {e : Event} (h : Truthful exempt w)
    (he : e.isSignal = false) (hdrops : ∀ s, e.drops s = false) : Truthful exempt (w.record e) := by
  refine h.step ?_ [e] rfl fun e' he' => List.mem_singleton.mp he' ▸ he
  refine h.tracked.same rfl (fun s h hh => ⟨h, hh, rfl, rfl, rfl⟩) (fun s => ?_)
    (List.Subset.refl _) (List.Subset.refl _)
  change (e.drops s || dropped s w.log) = dropped s w.log
  rw [hdrops]
  rfl

/-- A signal, where it is not too late for it. -/
theorem Truthful.kill {exempt : Option Sexp} {w : World} (h : Truthful exempt w) (site : KillSite)
    (s : Sexp) (target : ℤ) (sig : ℕ) (before : Proc)
    (hbefore : Orderly (.kill site s target sig before :: w.log) → sig ≠ 0 →
      before.isReaped = false) : Truthful exempt (w.record (.kill site s target sig before)) := by
  refine ⟨?_, fun horderly => ?_⟩
  · exact h.tracked.same rfl (fun s h hh => ⟨h, hh, rfl, rfl, rfl⟩) (fun s => rfl)
      (List.Subset.refl _) (List.Subset.refl _)
  · intro site' s' target' sig' before' hmem hsig
    rcases List.mem_cons.mp hmem with heq | hmem
    · cases heq
      exact hbefore horderly hsig
    · exact h.kills horderly.tail site' s' target' sig' before' hmem hsig

/-- The places in which a status that `waitpid()` returned is not stored. -/
def WaitSite.drops : WaitSite → Bool
  | .signal => true
  | .killCheck => true
  | _ => false

/-- A `waitpid()` drops nothing where its answer is stored, or where the child has not ended. -/
theorem drops_waitpid {site : WaitSite} {before : Proc}
    (h : site.drops = false ∨ before.isZombie = false) (s status : Sexp) (pid : ℕ) :
    (Event.waitpid site status pid before).drops s = false := by
  rcases h with hsite | hbefore
  · cases site <;> first | rfl | cases hsite
  · cases site <;> first | rfl | simp [Event.drops, hbefore]

/-- What holds after a waitpid of a call, by its answer. -/
def Asked (site : WaitSite) (s : Sexp) (h : Handle) (wp : WaitResult) (w : World) : Prop :=
  match wp with
  | .none => Quietly none (fun w => Reading s h w ∧ (w.procs h.pid).isReaped = false) w
  | .exited _ =>
    if site.drops then Quietly none (Reading s h) w else Quietly (some s) (Answered s h wp) w
  | .echild => Quietly (some s) (Answered s h wp) w
  | .error => Quietly none (Reading s h) w

/-- A waitpid whose answer is not dropped. -/
theorem Quietly.waited {w w₁ : World} {s : Sexp} {h : Handle} {wp : WaitResult} {e : Event}
    (hw : Quietly none (fun w => w.handles s = some h) w)
    (hwait : w.waitNohang h.pid = (wp, w₁)) (hwp : wp ≠ .none) (he : e.isSignal = false)
    (hdrops : ∀ s, e.drops s = false) : Quietly (some s) (Answered s h wp) (w₁.record e) := by
  obtain ⟨hnone, _⟩ | ⟨_, _, hexempt, hreaped, hstorable, hhandles, hlog, _⟩ :=
    hw.sound.tracked.waitNohang hw.fact hwait
  · exact absurd hnone hwp
  · have hblocked : w₁.blocked = w.blocked := by
      obtain rfl | ⟨p, rfl⟩ := waitNohang_eq_setProc hwait <;> rfl
    refine ⟨hblocked.trans hw.blocked, ?_, hhandles ▸ hw.fact, hreaped, fun hcollected => ?_⟩
    · exact (hw.sound.step hexempt [] hlog nofun).record he hdrops
    · have haccounted := hstorable hcollected
      change Accounted _ _ _ (e.drops s || dropped s w₁.log)
      rw [hdrops]
      exact haccounted

/-- A status that is dropped leaves the handle as it is. -/
theorem Quietly.dropped {w : World} {site : WaitSite} {s : Sexp} {h : Handle} {stat : WStat}
    (hw : Quietly none (Reading s h) w) (hsite : site.drops = true)
    (hzombie : w.procs h.pid = .zombie stat) :
    Quietly none (Reading s h) ((w.setProc h.pid (.reaped stat)).record
      (.waitpid site s h.pid (.zombie stat))) := by
  have hown : ∀ s' h', w.handles s' = some h' → h'.pid = h.pid → s' = s :=
    fun s' h' hh' hpid => hw.sound.tracked.own s' s h' h hh' hw.fact.1 hpid
  have hdrops : ∀ s', (Event.waitpid site s h.pid (.zombie stat)).drops s' = decide (s = s') := by
    intro s'
    cases site with
    | signal => exact Bool.and_true _
    | killCheck => exact Bool.and_true _
    | _ => cases hsite
  refine ⟨hw.blocked, hw.sound.step ?_ [_] rfl fun e he => List.mem_singleton.mp he ▸ rfl, hw.fact⟩
  have hreaped := hw.sound.tracked.reap hzombie hown
  refine hreaped.change rfl (fun s' h' hh' => ⟨h', hh', rfl⟩) (fun s' h' hh' _ => ?_)
    (List.Subset.refl _) (List.Subset.refl _)
  change Accounted _ _ _ (Event.drops s' _ || Processx.dropped s' w.log)
  rw [hdrops]
  by_cases hs : s = s'
  · subst hs
    have hsame : h' = h := Option.some.inj (hh'.symm.trans hw.fact.1)
    have hprocs : (w.setProc h.pid (.reaped stat)).procs h.pid = .reaped stat := if_pos rfl
    rw [hsame, hprocs, hw.fact.2]
    simp [Accounted]
  · have haccounted := hreaped.accounted s' h' hh' fun he => absurd (Option.some.inj he) hs
    rw [decide_eq_false hs]
    exact haccounted

/-- A waitpid for the child of the handle that was read. -/
theorem asked_waitpid {site : WaitSite} {s : Sexp} {h : Handle} {w w' : World} {c : Choice}
    {wp : WaitResult} (hw : Quietly none (Reading s h) w)
    (hask : waitpid site s h.pid w c = some (wp, w')) : Asked site s h wp w' := by
  have hstart := hw.sound.tracked.started hw.fact.1
  obtain ⟨rfl, rfl⟩ | ⟨w₁, hwait, rfl⟩ := waitpid_cases hask
  · exact hw
  · have hread : Quietly none (fun w => w.handles s = some h) w := ⟨hw.blocked, hw.sound, hw.fact.1⟩
    obtain ⟨rfl, rfl, hrun⟩ | ⟨stat, rfl, hzombie, rfl⟩ | ⟨rfl, rfl, ⟨stat, hreaped⟩ | habsent⟩ :=
      waitNohang_cases hwait
    · refine ⟨hw.blocked, hw.sound.record rfl fun s' => ?_, hw.fact, ?_⟩
      · exact drops_waitpid (Or.inr (by rw [hrun]; rfl)) s' s h.pid
      · change (w₁.procs h.pid).isReaped = false
        rw [hrun]
        rfl
    · rw [hzombie]
      unfold Asked
      cases hsite : site.drops with
      | true =>
        rw [if_pos rfl]
        exact hw.dropped hsite hzombie
      | false =>
        rw [if_neg nofun]
        exact hread.waited hwait nofun rfl fun s' => drops_waitpid (Or.inl hsite) s' s h.pid
    · exact hread.waited hwait nofun rfl fun s' =>
        drops_waitpid (Or.inr (by rw [hreaped]; rfl)) s' s h.pid
    · exact absurd habsent hstart

/-- Storing the answer. -/
theorem Quietly.collected {w : World} {s : Sexp} {h : Handle} {wp : WaitResult}
    (hw : Quietly (some s) (Answered s h wp) w) :
    Quietly none (fun _ => True) (w.collectExitStatus s wp) := by
  have ht := hw.sound.tracked.collect hw.fact.1 hw.fact.2.2
  have hblocked : (w.collectExitStatus s wp).blocked = w.blocked := by
    obtain ⟨_, heq⟩ | ⟨fd, _, heq⟩ := collectExitStatus_cases w s wp <;> rw [heq] <;> rfl
  refine ⟨hblocked.trans hw.blocked, ?_, trivial⟩
  obtain hlog | ⟨fd, before, hlog⟩ := log_collectExitStatus w s wp
  · exact hw.sound.step ht [] hlog nofun
  · exact hw.sound.step ht [_] hlog fun e he => List.mem_singleton.mp he ▸ rfl

variable {α ρ : Type}

/-- Programs that keep track of the children. -/
abbrev Watches (P : World → Prop) (p : Call α) (Q : Except String α → World → Prop) : Prop :=
  Ensures World.move Watched P p Q

/-- The end of a call. -/
theorem unblockAndReturn_watches (result : α) :
    Watches (Truthful none) (unblockAndReturn result) (fun _ => Truthful none) := by
  refine Ensures.step kept_sound (fun _ => Truthful none) ?_ fun _ => .ret kept_sound fun _ h => h
  exact fun w c r w' hw h => hw.notes (noteAct_unblockSigchld w c r w' h)

/-- The error exit of a call. -/
theorem unblockAndThrow_watches (msg : String) :
    Watches (Truthful none) (unblockAndThrow msg : Call α) (fun _ => Truthful none) := by
  refine Ensures.step kept_sound (fun _ => Truthful none) ?_ fun _ => .throw kept_sound fun _ h => h
  exact fun w c r w' hw h => hw.notes (noteAct_unblockSigchld w c r w' h)

/-- Less is enough in the end. -/
theorem Watches.of_quietly {φ : World → Prop} {p : Call α} {Q : Except String α → World → Prop}
    (h : Watches (Truthful none) p Q) : Watches (Quietly none φ) p Q :=
  h.conseq (fun _ hw => hw.sound) fun _ _ hw => hw

/-- The beginning of a call: block the signal, read the handle, and stop if there is none or
if its child was collected. -/
theorem beginning_watches {s : Sexp} {f : Option Handle → Call α}
    (hnone : Watches (Truthful none) (f none) (fun _ => Truthful none))
    (hdone : ∀ h : Handle, h.collected = true → Watches (Truthful none) (f (some h))
      (fun _ => Truthful none))
    (hopen : ∀ h : Handle, h.collected = false →
      Watches (Quietly none (Reading s h)) (f (some h)) (fun _ => Truthful none)) :
    Watches (Truthful none) (Prog.lift blockSigchld >>= fun _ => Prog.lift (readHandle s) >>= f)
      (fun _ => Truthful none) := by
  refine Ensures.step kept_sound (fun _ => Quietly none fun _ => True) ?_ fun _ => ?_
  · intro w c r w' hw hblock
    have hnotes := noteAct_blockSigchld w c r w' hblock
    cases hblock
    exact ⟨rfl, hw.notes hnotes, trivial⟩
  refine Ensures.step (kept_quietly fun _ _ _ _ _ => trivial)
    (fun handle => Quietly none fun w => w.handles s = handle) ?_ fun handle => ?_
  · rintro w c handle w' hw ⟨⟩
    exact ⟨hw.blocked, hw.sound, rfl⟩
  cases handle with
  | none => exact hnone.of_quietly
  | some h =>
    cases hcollected : h.collected with
    | true => exact (hdone h hcollected).of_quietly
    | false =>
      refine (hopen h hcollected).conseq (fun w hw => ?_) fun _ _ hw => hw
      exact ⟨hw.blocked, hw.sound, hw.fact, hcollected⟩

/-- Store the answer of a waitpid, and go on. -/
theorem collect_watches {s : Sexp} {h : Handle} {wp : WaitResult} {f : Unit → Call α}
    (hf : Watches (Quietly none fun _ => True) (f ()) (fun _ => Truthful none)) :
    Watches (Quietly (some s) (Answered s h wp)) (Prog.lift (collectExitStatus s wp) >>= f)
      (fun _ => Truthful none) := by
  refine Ensures.step (kept_quietly (atExit_answered s h wp))
    (fun _ => Quietly none fun _ => True) ?_ fun _ => hf
  rintro w c r w' hw ⟨⟩
  exact hw.collected

/-- A waitpid in a call, and what comes after it. -/
theorem waitpid_watches {site : WaitSite} {s : Sexp} {h : Handle} {f : WaitResult → Call α}
    {Q : Except String α → World → Prop} (hf : ∀ wp, Watches (Asked site s h wp) (f wp) Q) :
    Watches (Quietly none (Reading s h)) (Prog.lift (waitpid site s h.pid) >>= f) Q :=
  Ensures.step (kept_quietly (atExit_reading s h)) (Asked site s h)
    (fun _ _ _ _ hw hask => asked_waitpid hw hask) hf

/-- `processx_is_alive()` keeps track of the children. -/
theorem processxIsAlive_watches (s : Sexp) :
    Watches (Truthful none) (processxIsAlive s) (fun _ => Truthful none) := by
  have hreturn := fun result : Bool => unblockAndReturn_watches result
  have hstore : ∀ h wp, Watches (Quietly (some s) (Answered s h wp))
      (Prog.lift (collectExitStatus s wp) >>= fun _ => unblockAndReturn false)
      (fun _ => Truthful none) := fun h wp => collect_watches (hreturn false).of_quietly
  refine beginning_watches (hreturn false) (fun h hcollected => ?_) fun h hcollected => ?_
  · simp only [hcollected, if_true]
    exact hreturn false
  · simp only [hcollected, Bool.false_eq_true, if_false]
    refine waitpid_watches fun wp => ?_
    cases wp with
    | error => exact (unblockAndThrow_watches _).of_quietly
    | none => exact (hreturn true).of_quietly
    | exited stat => exact hstore h (.exited stat)
    | echild => exact hstore h .echild

/-- So does `processx_get_exit_status()`. -/
theorem processxGetExitStatus_watches (s : Sexp) :
    Watches (Truthful none) (processxGetExitStatus s) (fun _ => Truthful none) := by
  have hreturn := fun result : Option ℤ => unblockAndReturn_watches result
  have hstore : ∀ h wp, Watches (Quietly (some s) (Answered s h wp))
      (Prog.lift (collectExitStatus s wp) >>= fun _ =>
        Prog.lift (readExitcode s) >>= fun exitcode =>
        unblockAndReturn (some exitcode)) (fun _ => Truthful none) := by
    refine fun h wp => collect_watches ?_
    refine Ensures.step (kept_quietly fun _ _ _ _ _ => trivial)
      (fun _ => Quietly none fun _ => True) ?_ fun exitcode => (hreturn _).of_quietly
    rintro w c r w' hw ⟨⟩
    exact hw
  refine beginning_watches (hreturn _) (fun h hcollected => ?_) fun h hcollected => ?_
  · simp only [hcollected, if_true]
    exact hreturn _
  · simp only [hcollected, Bool.false_eq_true, if_false]
    refine waitpid_watches fun wp => ?_
    cases wp with
    | error => exact (unblockAndThrow_watches _).of_quietly
    | none => exact (hreturn none).of_quietly
    | exited stat => exact hstore h (.exited stat)
    | echild => exact hstore h .echild

/-- A signal of `processx_signal()`: it is too late only if the status was dropped. -/
theorem signal_quietly {s : Sexp} {h : Handle} {group : Bool} {sig : ℕ} {w w' : World} {c : Choice}
    {r : KillResult} (hw : Quietly none (Reading s h) w)
    (hkill : kill .signal s (if group then -h.pid else h.pid) sig w c = some (r, w')) :
    Quietly none (Reading s h) w' := by
  obtain rfl := kill_eq_record hkill
  have htarget : (if group then -(h.pid : ℤ) else h.pid).natAbs = h.pid := by
    split
    · rw [Int.natAbs_neg, Int.natAbs_natCast]
    · rw [Int.natAbs_natCast]
  refine ⟨hw.blocked, hw.sound.kill _ _ _ _ _ fun horderly hsig => ?_, hw.fact⟩
  rw [htarget]
  refine Bool.eq_false_iff.mpr fun hreaped => ?_
  have hlost := hw.sound.tracked.lost_of_isReaped hw.fact.1 hw.fact.2 hreaped
  rw [horderly.1 hsig] at hlost
  cases hlost

/-- So does `processx_signal()`. -/
theorem processxSignal_watches (s : Sexp) (sig : ℕ) (group : Bool) :
    Watches (Truthful none) (processxSignal s sig group) (fun _ => Truthful none) := by
  have hreturn := fun result : Bool => unblockAndReturn_watches result
  refine beginning_watches (hreturn false) (fun h hcollected => ?_) fun h hcollected => ?_
  · simp only [hcollected, if_true]
    exact hreturn false
  · simp only [hcollected, Bool.false_eq_true, if_false]
    refine Ensures.step (kept_quietly (atExit_reading s h)) (fun _ => Quietly none (Reading s h))
      (fun _ _ _ _ hw hkill => signal_quietly hw hkill) fun ret => ?_
    split
    · exact (unblockAndThrow_watches _).of_quietly
    · refine waitpid_watches fun wp => ?_
      cases wp with
      | error => exact (unblockAndThrow_watches _).of_quietly
      | echild => exact collect_watches (hreturn _).of_quietly
      | none => exact (hreturn _).of_quietly
      | exited stat => exact (hreturn _).of_quietly

/-- The handle of `s` is about the child `pid`, or there is none. -/
def PidOf (s : Sexp) (pid : Option ℕ) (w : World) : Prop := (w.handles s).map Handle.pid = pid

/-- The moves do not change whose child it is. -/
theorem PidOf.move {s : Sexp} {pid : Option ℕ} (w : World) (m : Move) (w' : World)
    (hw : PidOf s pid w) (hmove : w.move m = some w') : PidOf s pid w' := by
  refine move_keeps (P := PidOf s pid) ?_ ?_ ?_ ?_ w m w' hw hmove
  · exact fun w pid stat hw _ => hw
  · exact fun w hw _ _ => hw
  · intro w node wp w₁ hw _ hwait _
    have hw₁ : PidOf s pid w₁ := by
      obtain rfl | ⟨p, rfl⟩ := waitNohang_eq_setProc hwait <;> exact hw
    exact (pid_childExited w₁ node wp s).trans hw₁
  · exact fun w kept hw _ => hw

/-- What holds while a wait polls. -/
def Waiting (s : Sexp) (pid : Option ℕ) (w : World) : Prop := Truthful none w ∧ PidOf s pid w

/-- A child may exit while a wait polls. -/
theorem kept_waiting (s : Sexp) (pid : Option ℕ) : Kept World.move Watched (Waiting s pid) :=
  kept_sound.and PidOf.move

/-- What the signal handler notes down changes nothing for a wait. -/
theorem Waiting.notes {s : Sexp} {pid : Option ℕ} {w w' : World} (hw : Waiting s pid w)
    (h : Notes w w') : Waiting s pid w' := by
  refine ⟨hw.1.notes h, ?_⟩
  rw [PidOf, h.handles]
  exact hw.2

/-- A step that changes at most the pipe of the handle. -/
theorem Waiting.setPipe {s : Sexp} {pid : Option ℕ} {w : World} {h' : Option Handle}
    (hw : Waiting s pid w) (hsame : ∀ h₁, h' = some h₁ → ∃ h, w.handles s = some h ∧
      h.pid = h₁.pid ∧ h.collected = h₁.collected ∧ h.exitcode = h₁.exitcode)
    (hpid : h'.map Handle.pid = (w.handles s).map Handle.pid) :
    Waiting s pid (w.setHandle s h') := by
  refine ⟨hw.1.step ?_ [] rfl nofun, ?_⟩
  · refine hw.1.tracked.same rfl (fun s' h₁ hh₁ => ?_) (fun s' => rfl) (List.Subset.refl _)
      (List.Subset.refl _)
    by_cases hs : s' = s
    · subst hs
      exact hsame h₁ (by simpa [World.setHandle] using hh₁)
    · exact ⟨h₁, by simpa [World.setHandle, hs] using hh₁, rfl, rfl, rfl⟩
  · have hset : (w.setHandle s h').handles s = h' := if_pos rfl
    rw [PidOf, hset, hpid]
    exact hw.2

/-- A wait makes its pipe. -/
theorem Waiting.makeWaitpipe {s : Sexp} {pid : Option ℕ} {w w' : World} {c : Choice}
    {made : Option (ℕ × ℕ × ℕ)} (hw : Waiting s pid w)
    (hmake : makeWaitpipe s w c = some (made, w')) : Waiting s pid w' := by
  obtain ⟨_, rfl⟩ | ⟨r, wr, h, _, hh, _, _, _, rfl⟩ := makeWaitpipe_cases hmake
  · exact hw
  · have hset : Waiting s pid (w.setHandle s
        (some { h with waitpipe0 := some r, waitpipe1 := some wr })) := by
      refine hw.setPipe ?_ (by rw [hh]; rfl)
      rintro _ ⟨⟩
      exact ⟨h, hh, rfl, rfl, rfl⟩
    exact ⟨hset.1.of_eq rfl rfl rfl rfl rfl, hset.2⟩

/-- A wait clears its pipe. -/
theorem Waiting.clearWaitpipe {s : Sexp} {pid : Option ℕ} {w w' : World} {c : Choice} {u : Unit}
    (hw : Waiting s pid w) (hclear : clearWaitpipe s w c = some (u, w')) : Waiting s pid w' := by
  cases hclear
  refine hw.setPipe (fun h₁ hh₁ => ?_) ?_
  · obtain ⟨h, hh, rfl⟩ := Option.map_eq_some_iff.mp hh₁
    exact ⟨h, hh, rfl, rfl, rfl⟩
  · rw [Option.map_map]
    rfl

/-- The polling only takes notes, and sends no signal. -/
theorem pollLoop_watches (s : Sexp) (o : Option ℕ) (pid r wr pipe : ℕ) (timeout : ℤ)
    (rounds : ℕ) (timeleft : ℤ) :
    Watches (Waiting s o) (pollLoop s pid r wr pipe timeout rounds timeleft)
      (fun _ => Waiting s o) := by
  refine Ensures.each (kept_waiting s o) (pollLoop_each ?_ ?_ r wr pipe timeout rounds timeleft)
  · exact fun a ha w c r w' hw h => hw.notes (ha w c r w' h)
  · intro w c r w' hw hkill
    obtain rfl := kill_eq_record hkill
    exact ⟨hw.1.kill _ _ _ _ _ fun _ hsig => absurd rfl hsig, hw.2⟩

/-- In an orderly run the child of `s` can be signalled. -/
def Signallable (s : Sexp) (pid : ℕ) (w : World) : Prop :=
  PidOf s (some pid) w ∧ (Orderly w.log → (w.procs pid).isReaped = false)

/-- The exit of a child does not make a signal to it come too late. -/
theorem atExit_signallable (s : Sexp) (pid : ℕ) : AtExit (Signallable s pid) :=
  fun w pid' stat hw hrun =>
    ⟨hw.1, fun horderly => atExit_notReaped pid w pid' stat (hw.2 horderly) hrun⟩

/-- What holds after a wait: if it was called with the signal blocked and the time was up,
then the child can be signalled. -/
def Waited (s : Sexp) (o : Option ℕ) (old timedOut : Prop) (w : World) : Prop :=
  Waiting s o w ∧ (old → timedOut → ∀ pid, o = some pid → Quietly none (Signallable s pid) w)

/-- A child may exit behind a wait. -/
theorem kept_waited (s : Sexp) (o : Option ℕ) (old timedOut : Prop) :
    Kept World.move Watched (Waited s o old timedOut) where
  move w m w' hw hmove := by
    refine ⟨(kept_waiting s o).move w m w' hw.1 hmove, fun hold htimedOut pid ho => ?_⟩
    exact (kept_quietly (atExit_signallable s pid)).move w m w' (hw.2 hold htimedOut pid ho) hmove
  safe w hw := ⟨none, hw.1.1⟩

/-- A wait that does not say that the time was up. -/
theorem Waiting.waited {s : Sexp} {o : Option ℕ} {w : World} {old timedOut : Prop}
    (hw : Waiting s o w) (hnot : ¬ timedOut) : Waited s o old timedOut w :=
  ⟨hw, fun _ h => absurd h hnot⟩

/-- The state in which a wait that timed out restores a blocked mask is recorded. -/
theorem waited_restoreMask {s : Sexp} {pid : ℕ} {old : Bool} {answer : PollAnswer} {w : World}
    (hw : Waiting s (some pid) w) :
    Waited s (some pid) (old = true) (answer = .timeout)
      ((w.procmaskSet old).record (.waitEnded old answer pid (w.procs pid))) := by
  have hnotes : Notes w ((w.procmaskSet old).record (.waitEnded old answer pid (w.procs pid))) :=
    (notes_procmaskSet w old).trans (.record _ rfl)
  refine ⟨hw.notes hnotes, ?_⟩
  rintro rfl rfl _ ⟨⟩
  exact ⟨rfl, (hw.notes hnotes).1, hw.2, fun horderly => horderly.1⟩

/-- The end of a wait: a timeout says that the child was alive at the last look. -/
theorem endWait_watches (s : Sexp) (pid : ℕ) (old : Bool) (answer : PollAnswer) :
    Watches (Waiting s (some pid)) (endWait s pid old answer)
      (fun result => Waited s (some pid) (old = true) (result = .ok false)) := by
  have hkept := kept_waiting s (some pid)
  rw [endWait]
  split
  · exact .throw hkept fun w hw => hw.waited (by rintro ⟨⟩)
  · refine Ensures.step hkept (fun _ => Waiting s (some pid))
      (fun w c r w' hw hclear => hw.clearWaitpipe hclear) fun _ => ?_
    refine Ensures.step hkept (fun _ => Waited s (some pid) (old = true) (answer = .timeout)) ?_
      fun _ => ?_
    · rintro w c r w' hw ⟨⟩
      exact waited_restoreMask hw
    refine .ret (kept_waited s (some pid) _ _) fun w hw => ⟨hw.1, fun hold hresult => hw.2 hold ?_⟩
    simpa using Except.ok.inj hresult

/-- A note inside of a wait. -/
theorem Watches.waitingStep {s : Sexp} {o : Option ℕ} {a : Act ρ} (ha : NoteAct a) {f : ρ → Call α}
    {Q : Except String α → World → Prop} (hf : ∀ r, Watches (Waiting s o) (f r) Q) :
    Watches (Waiting s o) (Prog.lift a >>= f) Q :=
  Ensures.step (kept_waiting s o) (fun _ => Waiting s o)
    (fun w c r w' hw h => hw.notes (ha w c r w' h)) hf

/-- The part of a wait behind the making of the pipe. -/
theorem afterWaitpipe_watches (rounds : ℕ) (s : Sexp) (pid : ℕ) (old : Bool) (timeout : ℤ)
    (r wr pipe : ℕ) :
    Watches (Waiting s (some pid)) (do
        Prog.lift (saveWaitpipe r wr)
        Prog.lift unblockSigchld
        let answer ← pollLoop s pid r wr pipe timeout rounds timeout
        endWait s pid old answer)
      (fun result => Waited s (some pid) (old = true) (result = .ok false)) := by
  refine Ensures.step (kept_waiting s (some pid)) (fun _ => Waiting s (some pid)) ?_ fun _ => ?_
  · intro w c u w' hw hsave
    unfold saveWaitpipe at hsave
    split at hsave <;> cases hsave
    · exact ⟨hw.1.of_eq rfl rfl rfl rfl rfl, hw.2⟩
    · exact hw
  refine Watches.waitingStep noteAct_unblockSigchld fun _ => ?_
  exact (pollLoop_watches s (some pid) pid r wr pipe timeout rounds timeout).bind
    (fun answer => endWait_watches s pid old answer) fun e w hw => hw.waited nofun

/-- A wait keeps track of the children, and if it was called with the signal blocked and the
time was up, the child can be signalled. -/
theorem cProcessxWait_watches (rounds : ℕ) (s : Sexp) (timeout : ℤ) (o : Option ℕ) (b : Bool) :
    Watches (fun w => Waiting s o w ∧ w.blocked = b) (cProcessxWait rounds s timeout)
      (fun result => Waited s o (b = true) (result = .ok false)) := by
  have hstart : Kept World.move Watched (fun w => Waiting s o w ∧ w.blocked = b) :=
    (kept_waiting s o).and fun w m w' hw hmove => (blocked_move hmove).trans hw
  refine Ensures.step hstart (fun _ w => Waiting s o w ∧ w.blocked = b) ?_ fun registered => ?_
  · intro w c registered w' hw hcall
    obtain ⟨_, rfl⟩ | ⟨frame, frames, _, _, rfl⟩ := callOnExit_cases hcall
    · exact ⟨hw.1.notes (.record _ rfl), hw.2⟩
    · exact ⟨⟨hw.1.1.of_eq rfl rfl rfl rfl rfl, hw.1.2⟩, hw.2⟩
  cases registered with
  | false => exact .throw hstart fun w hw => hw.1.waited nofun
  | true =>
    refine Ensures.step hstart (fun old w => old = b ∧ Waiting s o w) ?_ fun old => .of_fact ?_
    · intro w c old w' hw hblock
      refine ⟨?_, hw.1.notes (noteAct_blockSigchld w c old w' hblock)⟩
      cases hblock
      exact hw.2
    rintro rfl
    refine Ensures.step (kept_waiting s o) (fun handle w => handle.map Handle.pid = o ∧
      Waiting s o w) ?_ fun handle => .of_fact fun hpid => ?_
    · rintro w c handle w' hw ⟨⟩
      exact ⟨hw.2, hw⟩
    have hstop : ∀ {a : Act Unit} {p : Call Bool}, NoteAct a →
        p = .ret true ∨ (∃ msg, p = .throw msg) →
        Watches (Waiting s o) (Prog.lift a >>= fun _ => p)
          (fun result => Waited s o (old = true) (result = .ok false)) := by
      rintro a p ha (rfl | ⟨msg, rfl⟩)
      · exact Watches.waitingStep ha fun _ => .ret (kept_waiting s o) fun w hw => hw.waited nofun
      · exact Watches.waitingStep ha fun _ => .throw (kept_waiting s o) fun w hw => hw.waited nofun
    cases handle with
    | none => exact hstop (noteAct_procmaskSet old) (Or.inl rfl)
    | some h =>
      subst hpid
      dsimp only
      split
      · exact hstop (noteAct_procmaskSet old) (Or.inl rfl)
      · refine Watches.waitingStep noteAct_setupSigchld fun _ => ?_
        refine Watches.waitingStep noteAct_blockSigchld fun _ => ?_
        refine Ensures.step (kept_waiting s _) (fun _ => Waiting s _)
          (fun w c made w' hw hmake => hw.makeWaitpipe hmake) fun made => ?_
        cases made with
        | none => exact hstop (noteAct_restoreAfterFailure old) (Or.inr ⟨_, rfl⟩)
        | some ends =>
          obtain ⟨r, wr, pipe⟩ := ends
          exact afterWaitpipe_watches rounds s h.pid old timeout r wr pipe

/-- A signal to a child that can be signalled. -/
theorem killWith_watches {s : Sexp} {pid sig : ℕ} {next : Call Bool}
    (hnext : Watches (Quietly none (Signallable s pid)) next (fun _ => Truthful none)) :
    Watches (Quietly none (Signallable s pid)) (killWith s pid sig next)
      (fun _ => Truthful none) := by
  refine Ensures.step (kept_quietly (atExit_signallable s pid))
    (fun _ => Quietly none (Signallable s pid)) ?_ fun ret => ?_
  · intro w c r w' hw hkill
    obtain rfl := kill_eq_record hkill
    refine ⟨hw.blocked, hw.sound.kill _ _ _ _ _ fun horderly _ => ?_, hw.fact.1, fun horderly => ?_⟩
    · rw [Int.natAbs_neg, Int.natAbs_natCast]
      exact hw.fact.2 horderly.tail
    · exact hw.fact.2 horderly.tail
  cases ret with
  | gone => exact (unblockAndReturn_watches false).of_quietly
  | error => exact (unblockAndThrow_watches _).of_quietly
  | ok => exact hnext

/-- The last part of a kill keeps track of the children. -/
theorem killHard_watches (s : Sexp) (pid : ℕ) :
    Watches (Quietly none (Signallable s pid)) (killHard s pid) (fun _ => Truthful none) := by
  refine killWith_watches ?_
  refine Ensures.step (kept_quietly (atExit_signallable s pid))
    (fun wp w => ∃ h, Quietly (some s) (Answered s h wp) w) ?_ fun wp => ?_
  · intro w c wp w' hw hwait
    obtain ⟨h, hh, rfl⟩ := Option.map_eq_some_iff.mp hw.fact.1
    obtain ⟨hrun, w₁, hnohang, rfl⟩ := waitpidBlocking_cases hwait
    have hread : Quietly none (fun w => w.handles s = some h) w := ⟨hw.blocked, hw.sound, hh⟩
    refine ⟨h, hread.waited hnohang ?_ rfl fun s' => drops_waitpid (Or.inl rfl) s' s h.pid⟩
    rintro rfl
    exact hrun (waitNohang_none hnohang).2
  · intro w o w' ⟨h, hw⟩ hrun
    refine collect_watches (h := h) ?_ w o w' hw hrun
    refine Ensures.step (kept_quietly fun _ _ _ _ _ => trivial)
      (fun _ => Quietly none fun _ => True) ?_ fun exitcode =>
        (unblockAndReturn_watches _).of_quietly
    rintro w c r w' hw ⟨⟩
    exact hw

/-- So does a kill with some grace. -/
theorem killGracefully_watches (rounds : ℕ) (s : Sexp) (pid : ℕ) (graceMs : ℤ) :
    Watches (Quietly none (Signallable s pid)) (killGracefully rounds s pid graceMs)
      (fun _ => Truthful none) := by
  refine killWith_watches ?_
  have hwait := (cProcessxWait_watches rounds s graceMs (some pid) true).conseq
    (P := Quietly none (Signallable s pid)) (fun w hw => ⟨⟨hw.sound, hw.fact.1⟩, hw.blocked⟩)
    fun _ _ hw => hw
  refine hwait.bind (fun finished => ?_) fun e w hw => hw.1.1
  cases finished with
  | true =>
    refine Ensures.conseq (R := Waiting s (some pid)) ?_ (fun w hw => hw.1) fun _ _ hw => hw
    refine Watches.waitingStep (noteAct_readExitcode s) fun exitcode => ?_
    exact (unblockAndReturn_watches _).conseq (fun w hw => hw.1) fun _ _ hw => hw
  | false =>
    exact (killHard_watches s pid).conseq (fun w hw => hw.2 rfl rfl pid rfl) fun _ _ hw => hw

/-- So does `c_processx_kill()`. -/
theorem cProcessxKill_watches (rounds : ℕ) (s : Sexp) (graceMs : ℤ) :
    Watches (Truthful none) (cProcessxKill rounds s graceMs) (fun _ => Truthful none) := by
  have hreturn := fun result : Bool => unblockAndReturn_watches result
  refine beginning_watches (hreturn false) (fun h hcollected => ?_) fun h hcollected => ?_
  · simp only [hcollected, if_true]
    exact hreturn false
  · simp only [hcollected, Bool.false_eq_true, if_false]
    refine waitpid_watches fun wp => ?_
    cases wp with
    | error => exact (unblockAndThrow_watches _).of_quietly
    | echild => exact collect_watches (hreturn _).of_quietly
    | exited stat => exact (hreturn _).of_quietly
    | none =>
      refine Ensures.conseq (R := Quietly none (Signallable s h.pid)) ?_ (fun w hw => ?_)
        fun _ _ hw => hw
      · dsimp only
        split
        · exact killGracefully_watches rounds s h.pid graceMs
        · exact killHard_watches s h.pid
      · obtain ⟨hblocked, hsound, hreading, hrunning⟩ := hw
        refine ⟨hblocked, hsound, ?_, fun _ => hrunning⟩
        rw [PidOf, hreading.1]
        rfl

/-- A step that closes a descriptor. -/
theorem callExits_watches (exits : List (Option (ℕ × ℕ))) :
    Watches (Truthful none) (callExits exits) (fun _ => Truthful none) := by
  have hclose : ∀ (fd : ℕ) {f : Unit → Call Unit},
      Watches (Truthful none) (f ()) (fun _ => Truthful none) →
      Watches (Truthful none) (Prog.lift (closeFd fd) >>= f) (fun _ => Truthful none) := by
    refine fun fd f hf => Ensures.step kept_sound (fun _ => Truthful none) ?_ fun _ => hf
    rintro w c r w' hw ⟨⟩
    refine hw.step ?_ [.close _ _ _] rfl fun e he => List.mem_singleton.mp he ▸ rfl
    exact hw.tracked.same rfl (fun s h hh => ⟨h, hh, rfl, rfl, rfl⟩) (fun s => rfl)
      (List.Subset.refl _) (List.Subset.refl _)
  induction exits with
  | nil => exact .ret kept_sound fun _ hw => hw
  | cons exit exits ih =>
    cases exit with
    | none => exact ih
    | some ends =>
      obtain ⟨r, wr⟩ := ends
      exact hclose r (hclose wr ih)

/-- A context adds nothing but exits to what its body does. -/
theorem withCleanupContext_watches {body : Call α}
    (hbody : Watches (Truthful none) body (fun _ => Truthful none)) :
    Watches (Truthful none) (withCleanupContext body) (fun _ => Truthful none) := by
  refine Ensures.step kept_sound (fun _ => Truthful none) ?_ fun _ => ?_
  · rintro w c r w' hw ⟨⟩
    exact hw.of_eq rfl rfl rfl rfl rfl
  refine hbody.attempt fun result => ?_
  refine Ensures.step kept_sound (fun _ => Truthful none) ?_ fun exits => ?_
  · rintro w c r w' hw ⟨⟩
    exact hw.of_eq rfl rfl rfl rfl rfl
  refine (callExits_watches exits).bind (fun _ => ?_) fun _ _ hw => hw
  cases result with
  | ok a => exact .ret kept_sound fun _ hw => hw
  | error e => exact .throw kept_sound fun _ hw => hw

/-- A wait from the outside. -/
theorem processxWait_watches (rounds : ℕ) (s : Sexp) (timeout : ℤ) :
    Watches (Truthful none) (processxWait rounds s timeout) (fun _ => Truthful none) := by
  refine withCleanupContext_watches fun w o w' hw hrun => ?_
  have hwait := cProcessxWait_watches rounds s timeout ((w.handles s).map Handle.pid) w.blocked
  obtain ⟨hwatched, hend⟩ := hwait w o w' ⟨⟨hw, rfl⟩, rfl⟩ hrun
  exact ⟨hwatched, fun r hr => (hend r hr).1.1⟩

/-- What holds while the handler is not installed. -/
structure Unhandled (exempt : Option Sexp) (φ : World → Prop) (w : World) : Prop where
  installed : w.installed = false
  sound : Truthful exempt w
  fact : φ w

/-- The exit of a child keeps track of the children while the child list is cleared. -/
theorem kept_unhandled {exempt : Option Sexp} {φ : World → Prop} (hφ : AtExit φ) :
    Kept World.move Watched (Unhandled exempt φ) where
  move := by
    rintro w m w' ⟨hinstalled, hsound, hfact⟩ hmove
    obtain ⟨pid, stat, hrun, rfl⟩ := move_unhandled (Or.inr hinstalled) hmove
    exact ⟨hinstalled, hsound.step (hsound.tracked.exit hrun) [] rfl nofun,
      hφ w pid stat hfact hrun⟩
  safe w h := ⟨exempt, h.sound⟩

/-- The nodes that are still to be visited: they lead to the handles of their children, and
none is stale, in an orderly run. -/
def Visiting (nodes : List Node) (w : World) : Prop :=
  (∀ node ∈ nodes, ∀ h, w.nodeHandle node = some h → h.pid = node.pid) ∧
    (Orderly w.log → ∀ node ∈ nodes, w.isStale node = false)

/-- A node with a live handle is stale if its child has been reaped. -/
theorem isStale_of_nodeHandle {w : World} {node : Node} {h : Handle}
    (hnode : w.nodeHandle node = some h) (hcleanup : h.cleanup = true) :
    w.isStale node = (w.procs node.pid).isReaped := by
  simp [World.isStale, hnode, hcleanup]

/-- A node is not stale if its child is not collected. -/
theorem isStale_eq_false {w : World} {node : Node}
    (hnot : ∀ h, w.nodeHandle node = some h → h.cleanup = true →
      (w.procs node.pid).isReaped = false) : w.isStale node = false := by
  cases hnode : w.nodeHandle node with
  | none => simp [World.isStale, hnode]
  | some h =>
    cases hcleanup : h.cleanup with
    | true =>
      rw [isStale_of_nodeHandle hnode hcleanup]
      exact hnot h hnode hcleanup
    | false => simp [World.isStale, hnode, hcleanup]

/-- The nodes still to be visited stay as they are. -/
theorem atExit_visiting (nodes : List Node) : AtExit (Visiting nodes) := by
  rintro w pid stat ⟨hpids, hstale⟩ hrun
  refine ⟨hpids, fun horderly node hnode => isStale_eq_false fun h hh hcleanup => ?_⟩
  have hfresh := hstale horderly node hnode
  have hh' : w.nodeHandle node = some h := hh
  rw [isStale_of_nodeHandle hh' hcleanup] at hfresh
  exact atExit_notReaped node.pid w pid stat hfresh hrun

/-- The rest of the nodes, while the handle of one is exempt. -/
def Clearing (exempt : Option Sexp) (node : Node) (nodes : List Node) (w : World) : Prop :=
  (exempt = none ∨ exempt = some node.status ∧ node.keyAlive = true ∧
    ∃ h, w.handles node.status = some h ∧ h.pid = node.pid) ∧
  (∀ n ∈ nodes, ∀ h, w.nodeHandle n = some h → h.pid = n.pid) ∧
  (Orderly w.log → ∀ n ∈ nodes, exempt = none ∨ n.pid ≠ node.pid → w.isStale n = false)

/-- So do the rest of them. -/
theorem atExit_clearing (exempt : Option Sexp) (node : Node) (nodes : List Node) :
    AtExit (Clearing exempt node nodes) := by
  rintro w pid stat ⟨hexempt, hpids, hstale⟩ hrun
  refine ⟨hexempt, hpids, fun horderly n hn hother => isStale_eq_false fun h hh hcleanup => ?_⟩
  have hfresh := hstale horderly n hn hother
  have hh' : w.nodeHandle n = some h := hh
  rw [isStale_of_nodeHandle hh' hcleanup] at hfresh
  exact atExit_notReaped n.pid w pid stat hfresh hrun

/-- A handle disappears, and with it everything that is stale about its child. -/
theorem Unhandled.clearNode {exempt : Option Sexp} {node : Node} {nodes : List Node} {w w' : World}
    {c : Choice} {u : Unit}
    (hw : Unhandled exempt (Clearing exempt node nodes) w)
    (hclear : clearNodeStatus node w c = some (u, w')) : Unhandled none (Visiting nodes) w' := by
  obtain ⟨hinstalled, hsound, hexempt, hpids, hstale⟩ := hw
  cases hclear
  by_cases halive : node.keyAlive = true
  · rw [if_pos halive]
    have hhandles : ∀ s h', (w.setHandle node.status none).handles s = some h' →
        s ≠ node.status ∧ w.handles s = some h' := by
      intro s h' hh'
      by_cases hs : s = node.status
      · simp [World.setHandle, hs] at hh'
      · exact ⟨hs, by simpa [World.setHandle, hs] using hh'⟩
    have hnode : ∀ n h', (w.setHandle node.status none).nodeHandle n = some h' →
        n.status ≠ node.status ∧ w.nodeHandle n = some h' := by
      intro n h' hh'
      unfold World.nodeHandle at hh' ⊢
      split at hh'
      next hkey => exact (hhandles _ h' hh').imp_right fun h => (if_pos hkey).trans h
      next => cases hh'
    refine ⟨hinstalled, hsound.step ?_ [] rfl (List.forall_mem_nil _), fun n hn h' hh' => ?_,
      fun horderly n hn => ?_⟩
    · refine hsound.tracked.change rfl (fun s h' hh' => ⟨h', (hhandles s h' hh').2, rfl⟩)
        (fun s h' hh' _ => ?_) (List.Subset.refl _) (List.Subset.refl _)
      refine hsound.tracked.accounted s h' (hhandles s h' hh').2 fun he => ?_
      rcases hexempt with hnone | ⟨hsome, _⟩
      · rw [hnone] at he
        cases he
      · rw [hsome] at he
        exact absurd (Option.some.inj he).symm (hhandles s h' hh').1
    · exact hpids n hn h' (hnode n h' hh').2
    · refine isStale_eq_false fun h' hh' hcleanup => ?_
      obtain ⟨hne, hold⟩ := hnode n h' hh'
      have hother : exempt = none ∨ n.pid ≠ node.pid := by
        refine hexempt.imp_right fun hown heq => hne ?_
        obtain ⟨_, _, h, hh, hpid⟩ := hown
        have hpid' : h'.pid = h.pid := (hpids n hn h' hold).trans (heq.trans hpid.symm)
        exact hsound.tracked.own _ _ h' h (handles_of_nodeHandle hold) hh hpid'
      have hfresh := hstale horderly n hn hother
      rwa [isStale_of_nodeHandle hold hcleanup] at hfresh
  · rw [if_neg halive]
    rcases hexempt with rfl | ⟨_, hkey, _⟩
    · exact ⟨hinstalled, hsound, hpids, fun horderly n hn => hstale horderly n hn (Or.inl rfl)⟩
    · exact absurd hkey halive

/-- The handle of a node was read, and the node is not stale, in an orderly run. -/
def NodeRead (node : Node) (handle : Option Handle) (nodes : List Node) (w : World) : Prop :=
  w.nodeHandle node = handle ∧ Visiting (node :: nodes) w

/-- So does the node that is looked at. -/
theorem atExit_nodeRead (node : Node) (handle : Option Handle) (nodes : List Node) :
    AtExit (NodeRead node handle nodes) :=
  fun w pid stat hw hrun => ⟨hw.1, atExit_visiting _ w pid stat hw.2 hrun⟩

/-- The kill of the loop. -/
theorem unhandled_kill {node : Node} {h : Handle} {nodes : List Node} {w w' : World} {c : Choice}
    {r : KillResult} (hcleanup : h.cleanup = true)
    (hw : Unhandled none (NodeRead node (some h) nodes) w)
    (hkill : kill .unload node.status node.pid 9 w c = some (r, w')) :
    Unhandled none (NodeRead node (some h) nodes) w' := by
  obtain rfl := kill_eq_record hkill
  obtain ⟨hinstalled, hsound, hhandle, hpids, hstale⟩ := hw
  refine ⟨hinstalled, hsound.kill _ _ _ _ _ fun horderly _ => ?_, hhandle, hpids,
    fun horderly => hstale horderly.tail⟩
  have hfresh := hstale horderly.tail node List.mem_cons_self
  rw [isStale_of_nodeHandle hhandle hcleanup] at hfresh
  exact hfresh

/-- The waitpid of the loop. -/
theorem unhandled_waitpid {node : Node} {h : Handle} {nodes : List Node} {w w' : World} {c : Choice}
    {wp : WaitResult} (hw : Unhandled none (NodeRead node (some h) nodes) w)
    (hwait : waitpidBlocking .unload node.status node.pid w c = some (wp, w')) :
    Unhandled (some node.status) (Clearing (some node.status) node nodes) w' := by
  obtain ⟨hinstalled, hsound, hhandle, hpids, hstale⟩ := hw
  obtain ⟨hrun, w₁, hnohang, rfl⟩ := waitpidBlocking_cases hwait
  have hh := handles_of_nodeHandle hhandle
  have hpid : h.pid = node.pid := hpids node List.mem_cons_self h hhandle
  have halive : node.keyAlive = true := by
    by_contra hkey
    rw [World.nodeHandle, if_neg hkey] at hhandle
    cases hhandle
  rw [← hpid] at hnohang
  have hsame : w₁ = w ∨ ∃ p, w₁ = w.setProc h.pid p := waitNohang_eq_setProc hnohang
  obtain ⟨_, _, hrunning⟩ | ⟨_, _, hexempt, _, _, hhandles, hlog, _⟩ :=
    hsound.tracked.waitNohang hh hnohang
  · exact absurd (hpid ▸ hrunning) hrun
  · refine ⟨?_, ?_, Or.inr ⟨rfl, halive, h, ?_, hpid⟩, fun n hn h' hh' => ?_,
      fun horderly n hn hother => ?_⟩
    · obtain rfl | ⟨p, rfl⟩ := hsame <;> exact hinstalled
    · exact (hsound.step hexempt [] hlog (List.forall_mem_nil _)).record rfl
        fun s => drops_waitpid (Or.inl rfl) s node.status node.pid
    · change w₁.handles node.status = some h
      rw [hhandles]
      exact hh
    · refine hpids n (List.mem_cons_of_mem _ hn) h' ?_
      rw [World.nodeHandle, ← hhandles]
      exact hh'
    · have hne := hother.resolve_left (Option.some_ne_none _)
      have hfresh := hstale (hlog ▸ horderly.tail) n (List.mem_cons_of_mem _ hn)
      rw [← hfresh]
      obtain rfl | ⟨p, rfl⟩ := hsame
      · rfl
      · have hprocs : (w.setProc h.pid p).procs n.pid = w.procs n.pid :=
          if_neg (fun heq => hne (heq.trans hpid))
        change (_ && ((w.setProc h.pid p).procs n.pid).isReaped) = _
        rw [hprocs]
        rfl

/-- The loop of `processx__unload_cleanup()`, by induction on the nodes. -/
theorem unloadNodes_watches (nodes : List Node) :
    Watches (Unhandled none (Visiting nodes)) (unloadNodes nodes) (fun _ => Truthful none) := by
  induction nodes with
  | nil => exact .ret (kept_unhandled (atExit_visiting _)) fun _ hw => hw.sound
  | cons node nodes ih =>
    have hclear : ∀ exempt, Watches (Unhandled exempt (Clearing exempt node nodes))
        (Prog.lift (clearNodeStatus node) >>= fun _ => unloadNodes nodes)
          (fun _ => Truthful none) :=
      fun exempt => Ensures.step (kept_unhandled (atExit_clearing exempt node nodes))
        (fun _ => Unhandled none (Visiting nodes))
        (fun _ _ _ _ hw hclear => hw.clearNode hclear) fun _ => ih
    have hskip : ∀ handle, Watches (Unhandled none (NodeRead node handle nodes))
        (Prog.lift (clearNodeStatus node) >>= fun _ => unloadNodes nodes)
          (fun _ => Truthful none) := by
      refine fun handle => (hclear none).conseq (fun w hw => ?_) fun _ _ hw => hw
      refine ⟨hw.installed, hw.sound, Or.inl rfl, fun n hn => ?_, fun horderly n hn _ => ?_⟩
      · exact hw.fact.2.1 n (List.mem_cons_of_mem _ hn)
      · exact hw.fact.2.2 horderly n (List.mem_cons_of_mem _ hn)
    refine Ensures.step (kept_unhandled (atExit_visiting _))
      (fun handle => Unhandled none (NodeRead node handle nodes)) ?_ fun handle => ?_
    · rintro w c handle w' hw ⟨⟩
      exact ⟨hw.installed, hw.sound, rfl, hw.fact⟩
    cases handle with
    | none => exact hskip none
    | some h =>
      dsimp only
      cases hcleanup : h.cleanup with
      | false => exact hskip (some h)
      | true =>
        refine Ensures.step (kept_unhandled (atExit_nodeRead node (some h) nodes))
          (fun _ => Unhandled none (NodeRead node (some h) nodes))
          (fun _ _ _ _ hw hkill => unhandled_kill hcleanup hw hkill) fun _ => ?_
        exact Ensures.step (kept_unhandled (atExit_nodeRead node (some h) nodes))
          (fun _ => Unhandled (some node.status) (Clearing (some node.status) node nodes))
          (fun _ _ _ _ hw hwait => unhandled_waitpid hw hwait) fun _ => hclear _

/-- The nodes that the loop is going to visit. -/
theorem visiting_followNodes {first : Node} {nodes : List Node} {w w' : World} {c : Choice}
    (hw : Unhandled none (fun _ => True) w)
    (hfollow : followNodes first w c = some (nodes, w')) : Unhandled none (Visiting nodes) w' := by
  have hnotes := noteAct_followNodes first w c nodes w' hfollow
  cases hfollow
  refine ⟨hw.installed, hw.sound.notes hnotes, fun node hnode h hh => ?_,
    fun horderly node hnode => ?_⟩
  · refine hw.sound.tracked.nodePid node ?_ h hh
    split at hnode
    · exact Or.inl ((List.dropWhile_sublist _).subset hnode)
    · exact Or.inr ((List.dropWhile_sublist _).subset hnode)
  · have hnone := List.filter_eq_nil_iff.mp (List.map_eq_nil_iff.mp horderly.1) node hnode
    exact Bool.eq_false_iff.mpr hnone

/-- `processx__unload_cleanup()` keeps track of the children. -/
theorem unloadCleanup_watches : Watches (Truthful none) unloadCleanup (fun _ => Truthful none) := by
  refine Ensures.step kept_sound (fun _ => Truthful none)
    (fun w c r w' hw h => hw.notes (noteAct_readFirstChild w c r w' h)) fun first => ?_
  have htrivial : Kept World.move Watched (Unhandled none fun _ => True) :=
    kept_unhandled fun _ _ _ _ _ => trivial
  refine Ensures.step kept_sound (fun _ => Unhandled none fun _ => True) ?_ fun _ => ?_
  · intro w c r w' hw hremove
    have hnotes := noteAct_removeSigchld w c r w' hremove
    cases hremove
    exact ⟨rfl, hw.notes hnotes, trivial⟩
  have hloop : Watches (Unhandled none fun _ => True) (unloadFrom first)
      (fun _ => Truthful none) := by
    cases first with
    | none => exact .ret htrivial fun _ hw => hw.sound
    | some first =>
      exact Ensures.step htrivial (fun nodes => Unhandled none (Visiting nodes))
        (fun _ _ _ _ hw hfollow => visiting_followNodes hw hfollow) unloadNodes_watches
  refine hloop.bind (fun _ => ?_) fun _ _ hw => hw
  refine Ensures.step kept_sound (fun _ => Truthful none) ?_ fun _ => ?_
  · rintro w c r w' hw ⟨⟩
    refine hw.step ?_ [] rfl nofun
    exact hw.tracked.same rfl (fun s h hh => ⟨h, hh, rfl, rfl, rfl⟩) (fun s => rfl)
      (List.nil_subset _) (List.Subset.refl _)
  refine Ensures.step kept_sound (fun _ => Truthful none)
    (fun w c r w' hw h => hw.notes (noteAct_freelistFree w c r w' h)) fun _ => ?_
  exact .ret kept_sound fun _ hw => hw

/-- Every call keeps track of the children. -/
theorem processCall_watches (rounds : ℕ) (call : ProcessCall) :
    Watches (Truthful none) (call.run rounds) (fun _ => Truthful none) := by
  cases call with
  | isAlive s => exact ensures_dropResult kept_sound (processxIsAlive_watches s)
  | getExitStatus s => exact ensures_dropResult kept_sound (processxGetExitStatus_watches s)
  | signal s sig group =>
    exact ensures_dropResult kept_sound (processxSignal_watches s sig group)
  | kill s graceMs =>
    exact ensures_dropResult kept_sound
      (withCleanupContext_watches (cProcessxKill_watches rounds s graceMs))
  | wait s timeout => exact ensures_dropResult kept_sound (processxWait_watches rounds s timeout)
  | unload => exact unloadCleanup_watches

/-- What holds at any moment of a session. -/
theorem runSession_watched {rounds : ℕ} {calls : List ProcessCall} {w w' : World}
    {o : Option (Except String Unit)} (hstart : Tracked none w) (hlog : w.log = [])
    (hrun : Runs World.move (runSession rounds calls) w o w') : Watched w' := by
  have hsound : Truthful none w := by
    refine ⟨hstart, fun _ => ?_⟩
    rw [hlog]
    exact nofun
  exact (runSession_keeps kept_sound rounds (processCall_watches rounds) calls w o w' hsound hrun).1

/-- No status is `NA`. -/
theorem exitcode_ne_naInteger (stat : WStat) : stat.exitcode ≠ naInteger := by
  unfold naInteger
  cases stat with
  | exited code =>
    have hnonneg : (0 : ℤ) ≤ code.toNat := Int.natCast_nonneg _
    change (code.toNat : ℤ) ≠ _
    omega
  | signaled sig =>
    have hlt : (sig : ℕ) < 128 := sig.isLt
    change -((sig : ℕ) : ℤ) ≠ _
    omega

/-- **Exit codes.** At any moment of any session, a handle whose child is collected holds the
status with which the child terminated, if and only if no `waitpid()` has dropped it. -/
theorem exitcode_right_iff (rounds : ℕ) (calls : List ProcessCall) {w w' : World}
    {o : Option (Except String Unit)} (hstart : Tracked none w) (hlog : w.log = [])
    (hrun : Runs World.move (runSession rounds calls) w o w') (s : Sexp) (h : Handle)
    (hh : w'.handles s = some h) (hcollected : h.collected = true) :
    (∃ stat, w'.procs h.pid = .reaped stat ∧ h.exitcode = stat.exitcode) ↔
      dropped s w'.log = false := by
  obtain ⟨exempt, hsound⟩ := runSession_watched hstart hlog hrun
  have haccounted := hsound.tracked.accounted s h hh fun _ => hcollected
  obtain ⟨stat, hreaped⟩ := hsound.tracked.reaped_of_collected hh hcollected
  rw [hcollected, hreaped] at haccounted
  cases hlost : dropped s w'.log with
  | false =>
    rw [hlost] at haccounted
    exact iff_of_true ⟨stat, hreaped, haccounted⟩ rfl
  | true =>
    rw [hlost] at haccounted
    refine iff_of_false ?_ nofun
    rintro ⟨stat', _, hexitcode⟩
    exact exitcode_ne_naInteger stat' (hexitcode.symm.trans haccounted)

/-- A session with one running child. -/
theorem tracked_oneChild : Tracked none oneChild := by
  have hhandle : ∀ s h, oneChild.handles s = some h →
      s = 0 ∧ h = { pid := 100, cleanup := true } := by
    intro s h hh
    unfold oneChild at hh
    dsimp only at hh
    split at hh
    next hs => exact ⟨hs, (Option.some.inj hh).symm⟩
    next => cases hh
  have hnode : ∀ node ∈ oneChild.childList, node = { pid := 100, status := 0 } :=
    fun node hnode => List.mem_singleton.mp hnode
  refine ⟨fun s h hh _ => ?_, fun s s' h h' hh hh' _ => ?_, fun node hmem h hh => ?_,
    fun node hmem s h hh _ => ?_, fun node hmem => ?_, nofun⟩
  · obtain ⟨_, rfl⟩ := hhandle s h hh
    exact rfl
  · rw [(hhandle s h hh).1, (hhandle s' h' hh').1]
  · rcases hmem with hmem | hmem
    · rw [hnode node hmem] at hh ⊢
      obtain ⟨_, rfl⟩ := hhandle 0 h (handles_of_nodeHandle hh)
      rfl
    · cases hmem
  · rw [hnode node hmem]
    exact ⟨(hhandle s h hh).1, rfl⟩
  · rw [hnode node hmem]
    exact nofun

/-- A child that exits before it is asked for. -/
theorem exitcode_right_iff_asked :
    ∃ w' h, Runs World.move (runSession 1 [.isAlive 0]) oneChild (some (.ok ())) w' ∧
      w'.handles 0 = some h ∧ h.collected = true ∧ h.exitcode = 7 ∧
      ((∃ stat, w'.procs h.pid = .reaped stat ∧ h.exitcode = stat.exitcode) ↔
        dropped 0 w'.log = false) := by
  have hruns : ∃ w', Runs World.move (runSession 1 [.isAlive 0]) oneChild (some (.ok ())) w' ∧
      (w'.handles 0).map (fun h => (h.collected, h.exitcode)) = some (true, 7) :=
    exists_run_of_drive ([.move (.exit 100 (.exited 7))] ++ acts [.ok, .ok, .ok, .ok, .ok])
      (fun w : World => (w.handles 0).map fun h => (h.collected, h.exitcode)) (by decide)
  obtain ⟨w', hrun, hseen⟩ := hruns
  obtain ⟨h, hh, hfields⟩ := Option.map_eq_some_iff.mp hseen
  obtain ⟨hcollected, hexitcode⟩ := Prod.mk.inj hfields
  exact ⟨w', h, hrun, hh, hcollected, hexitcode,
    exitcode_right_iff 1 [.isAlive 0] tracked_oneChild rfl hrun 0 h hh hcollected⟩

/-- A child that a signal kills before `processx_signal()` waits for it: the handler finds no
status any more. -/
theorem exitcode_lost :
    ∃ w' h, Runs World.move (runSession 1 [.signal 0 15 false]) oneChild (some (.ok ())) w' ∧
      w'.handles 0 = some h ∧ h.collected = true ∧ w'.procs h.pid = .reaped (.signaled 15) ∧
      h.exitcode = naInteger ∧ h.exitcode ≠ (WStat.signaled 15).exitcode := by
  have hruns : ∃ w', Runs World.move (runSession 1 [.signal 0 15 false]) oneChild
      (some (.ok ())) w' ∧ ((w'.handles 0).map fun h =>
        (h.collected, w'.procs h.pid, h.exitcode)) =
          some (true, .reaped (.signaled 15), naInteger) :=
    exists_run_of_drive (acts [.ok, .ok, .ok] ++ [.move (.exit 100 (.signaled 15))] ++
      acts [.ok, .ok] ++ [.move .sigchld])
      (fun w : World => (w.handles 0).map fun h => (h.collected, w.procs h.pid, h.exitcode))
      (by decide)
  obtain ⟨w', hrun, hseen⟩ := hruns
  obtain ⟨h, hh, hfields⟩ := Option.map_eq_some_iff.mp hseen
  simp only [Prod.mk.injEq] at hfields
  refine ⟨w', h, hrun, hh, hfields.1, hfields.2.1, hfields.2.2, ?_⟩
  rw [hfields.2.2]
  exact (exitcode_ne_naInteger _).symm

/-- **Signals.** At any moment of any session that is orderly so far, every signal was sent to
a child that had not been reaped. -/
theorem signals_before_reaping (rounds : ℕ) (calls : List ProcessCall) {w w' : World}
    {o : Option (Except String Unit)} (hstart : Tracked none w) (hlog : w.log = [])
    (hrun : Runs World.move (runSession rounds calls) w o w') (horderly : Orderly w'.log) :
    ∀ site s target sig before, .kill site s target sig before ∈ w'.log → sig ≠ 0 →
      before.isReaped = false := by
  obtain ⟨exempt, hsound⟩ := runSession_watched hstart hlog hrun
  exact hsound.kills horderly

/-- A signal to a running child. -/
theorem signals_before_reaping_running :
    ∃ w', Runs World.move (runSession 1 [.signal 0 15 false]) oneChild (some (.ok ())) w' ∧
      Event.kill .signal 0 100 15 .running ∈ w'.log ∧
      ∀ site s target sig before, .kill site s target sig before ∈ w'.log → sig ≠ 0 →
        before.isReaped = false := by
  have hruns : ∃ w', Runs World.move (runSession 1 [.signal 0 15 false]) oneChild
      (some (.ok ())) w' ∧ w'.log =
        [.unblocked, .waitpid .signal 0 100 .running, .kill .signal 0 100 15 .running] :=
    exists_run_of_drive (acts [.ok, .ok, .ok, .ok, .ok]) _ (by decide)
  obtain ⟨w', hrun, hlog⟩ := hruns
  have horderly : Orderly w'.log := by
    rw [hlog]
    exact ⟨fun _ => rfl, trivial⟩
  refine ⟨w', hrun, by rw [hlog]; decide, ?_⟩
  exact signals_before_reaping 1 [.signal 0 15 false] tracked_oneChild rfl hrun horderly

/-- A kill with a grace period, where the child exits and is reaped when the time was up:
the second signal goes to a number that is free. -/
theorem signal_after_reaping :
    ∃ w', Runs World.move (runSession 1 [.kill 0 100]) oneChild (some (.ok ())) w' ∧
      Event.kill .kill 0 (-100) 9 (.reaped (.signaled 15)) ∈ w'.log := by
  have hruns : ∃ w', Runs World.move (runSession 1 [.kill 0 100]) oneChild (some (.ok ())) w' ∧
      decide (Event.kill .kill 0 (-100) 9 (.reaped (.signaled 15)) ∈ w'.log) = true :=
    exists_run_of_drive (acts [.ok, .ok, .ok, .ok, .ok, .ok, .ok, .ok, .ok, .ok, .fds 5 6, .ok,
      .ok, .ok] ++ [.move (.exit 100 (.signaled 15)), .move .sigchld] ++
      acts [.ok, .ok, .ok, .ok, .ok, .ok, .ok, .ok, .ok, .ok])
      (fun w : World => decide (Event.kill .kill 0 (-100) 9 (.reaped (.signaled 15)) ∈ w.log))
      (by decide)
  obtain ⟨w', hrun, hseen⟩ := hruns
  exact ⟨w', hrun, of_decide_eq_true hseen⟩

end Processx
