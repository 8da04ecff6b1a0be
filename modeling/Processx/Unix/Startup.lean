import Processx.Unix.Actions

/-!
# Starting a child

Between the fork and the moment the child is in the list, the signal is blocked. While no
finalizer runs in that section, the handler does not run in it either, and every child stays
in the list until a run of the handler has taken it out. A finalizer of any other handle
unblocks the signal.
-/

namespace Processx

open Interruptible

/-- No finalizer has run inside the critical section. -/
def NoFinalizers (log : List Event) : Prop :=
  ∀ dead, .finalizers true dead ∈ log → dead = []

/-- A run of the handler has taken the child out of the list, and it was waited for. -/
def Handled (pid : ℕ) (w : World) : Prop :=
  (w.procs pid).isReaped = true ∧ ∃ pids, .handler false pids ∈ w.log ∧ pid ∈ pids

/-- No handler has run inside the critical section, and a child that was linked is in the
list until a run of the handler that had it in its list has taken it out. -/
structure ExitsSeen (w : World) : Prop where
  outside : ∀ pids, .handler true pids ∉ w.log
  listed : ∀ s pid, .linked s pid ∈ w.log → pid ∈ w.childList.map Node.pid ∨ Handled pid w

/-- A process goes on: it does not disappear, and a reaped child stays reaped. -/
structure Onward (p p' : Proc) : Prop where
  present : p ≠ .absent → p' ≠ .absent
  reaped : p.isReaped = true → p'.isReaped = true

/-- A process that stays as it is. -/
theorem Onward.refl (p : Proc) : Onward p p := ⟨id, id⟩

/-- What becomes of a process, in two steps. -/
theorem Onward.trans {p₁ p₂ p₃ : Proc} (h₁ : Onward p₁ p₂) (h₂ : Onward p₂ p₃) : Onward p₁ p₃ :=
  ⟨h₂.present ∘ h₁.present, h₂.reaped ∘ h₁.reaped⟩

/-- One process changes. -/
theorem onward_setProc {w : World} {pid : ℕ} {p : Proc} (h : Onward (w.procs pid) p) (n : ℕ) :
    Onward (w.procs n) ((w.setProc pid p).procs n) := by
  by_cases hn : n = pid
  · subst hn
    simpa [World.setProc] using h
  · simpa [World.setProc, hn] using Onward.refl (w.procs n)

/-- A waitpid lets every process go on. -/
theorem onward_waitNohang {w w₁ : World} {pid : ℕ} {wp : WaitResult}
    (h : w.waitNohang pid = (wp, w₁)) (n : ℕ) : Onward (w.procs n) (w₁.procs n) := by
  obtain ⟨_, rfl, _⟩ | ⟨stat, _, _, rfl⟩ | ⟨_, rfl, _⟩ := waitNohang_cases h
  · exact .refl _
  · have hgone : Onward (w.procs pid) (.reaped stat) := ⟨fun _ => nofun, fun _ => rfl⟩
    exact onward_setProc hgone n
  · exact .refl _

/-- The work on one child does not change the processes. -/
@[simp] theorem procs_childExited (w : World) (node : Node) (wp : WaitResult) :
    (w.childExited node wp).procs = w.procs := by
  obtain ⟨_, heq⟩ | ⟨h, _, _, heq⟩ | ⟨h, fd, _, _, heq⟩ := childExited_cases w node wp
  all_goals rw [heq]
  · exact procs_collectExitStatus w node.status wp
  · exact procs_collectExitStatus w node.status wp

/-- A child that the loop of the handler takes out of the list has been waited for. -/
theorem reaped_of_reapChildren (nodes : List Node) (w : World)
    (hpresent : ∀ node ∈ nodes, w.procs node.pid ≠ .absent) :
    (∀ n, Onward (w.procs n) ((w.reapChildren nodes).2.procs n)) ∧
      ∀ node ∈ nodes, node ∈ (w.reapChildren nodes).1 ∨
        ((w.reapChildren nodes).2.procs node.pid).isReaped = true := by
  induction nodes generalizing w with
  | nil => exact ⟨fun n => .refl _, nofun⟩
  | cons node nodes ih =>
    rw [World.reapChildren]
    cases hwait : w.waitNohang node.pid with
    | mk wp w₁ =>
      have honward := onward_waitNohang hwait
      by_cases hnone : wp = .none
      · subst hnone
        obtain ⟨rfl, _⟩ := waitNohang_none hwait
        obtain ⟨hprocs, hnodes⟩ := ih w₁ fun n hn => hpresent n (List.mem_cons_of_mem _ hn)
        refine ⟨hprocs, fun n hn => ?_⟩
        rcases List.mem_cons.mp hn with rfl | hn
        · exact Or.inl List.mem_cons_self
        · exact (hnodes n hn).imp_left (List.mem_cons_of_mem _)
      · have hreaped : (w₁.procs node.pid).isReaped = true := by
          obtain ⟨heq, _⟩ | ⟨stat, _, _, rfl⟩ | ⟨_, rfl, ⟨stat, hproc⟩ | habsent⟩ :=
            waitNohang_cases hwait
          · exact absurd heq hnone
          · simp [World.setProc, Proc.isReaped]
          · rw [hproc]
            rfl
          · exact absurd habsent (hpresent node List.mem_cons_self)
        obtain ⟨hprocs, hnodes⟩ := ih (w₁.childExited node wp) fun n hn => by
          rw [procs_childExited]
          exact (honward n.pid).present (hpresent n (List.mem_cons_of_mem _ hn))
        rw [procs_childExited] at hprocs
        have hall : (∀ n, Onward (w.procs n)
              (((w₁.childExited node wp).reapChildren nodes).2.procs n)) ∧
            ∀ n ∈ node :: nodes, n ∈ ((w₁.childExited node wp).reapChildren nodes).1 ∨
              (((w₁.childExited node wp).reapChildren nodes).2.procs n.pid).isReaped = true := by
          refine ⟨fun n => (honward n).trans (hprocs n), fun n hn => ?_⟩
          rcases List.mem_cons.mp hn with rfl | hn
          · exact Or.inr ((hprocs _).reaped hreaped)
          · exact hnodes n hn
        cases wp with
        | none => exact absurd rfl hnone
        | exited stat => exact hall
        | echild => exact hall
        | error => exact hall

/-- An event that is neither a run of the handler nor the start of a child. -/
def Event.isCalm : Event → Bool
  | .handler .. => false
  | .forked .. => false
  | .linked .. => false
  | _ => true

/-- A step in which the children in the list stay the same, and no handler runs. -/
structure Calm (w w' : World) : Prop where
  critical : w'.critical = w.critical
  pids : w'.childList.map Node.pid = w.childList.map Node.pid
  procs : ∀ pid, Onward (w.procs pid) (w'.procs pid)
  log : ∃ new, w'.log = new ++ w.log ∧ ∀ e ∈ new, e.isCalm = true

/-- A step that records nothing and leaves the processes and the list alone. -/
theorem Calm.of_eq {w w' : World} (hcritical : w'.critical = w.critical)
    (hlist : w'.childList = w.childList) (hprocs : w'.procs = w.procs) (hlog : w'.log = w.log) :
    Calm w w' :=
  ⟨hcritical, by rw [hlist], fun pid => hprocs ▸ .refl _, [], hlog, nofun⟩

/-- No step at all. -/
theorem Calm.refl (w : World) : Calm w w := .of_eq rfl rfl rfl rfl

/-- One calm step after another. -/
theorem Calm.trans {w₁ w₂ w₃ : World} (h₁ : Calm w₁ w₂) (h₂ : Calm w₂ w₃) : Calm w₁ w₃ where
  critical := h₂.critical.trans h₁.critical
  pids := h₂.pids.trans h₁.pids
  procs pid := (h₁.procs pid).trans (h₂.procs pid)
  log := by
    obtain ⟨new₁, hlog₁, hnew₁⟩ := h₁.log
    obtain ⟨new₂, hlog₂, hnew₂⟩ := h₂.log
    refine ⟨new₂ ++ new₁, by rw [hlog₂, hlog₁, List.append_assoc], fun e he => ?_⟩
    rcases List.mem_append.mp he with he | he
    · exact hnew₂ e he
    · exact hnew₁ e he

/-- A step that records one event. -/
theorem Calm.of_event {w w' : World} {e : Event} (hcritical : w'.critical = w.critical)
    (hpids : w'.childList.map Node.pid = w.childList.map Node.pid) (hprocs : w'.procs = w.procs)
    (hlog : w'.log = e :: w.log) (he : e.isCalm = true) : Calm w w' :=
  ⟨hcritical, hpids, fun _ => hprocs ▸ .refl _, [e], hlog,
    fun _ hmem => List.mem_singleton.mp hmem ▸ he⟩

/-- A calm event is recorded. -/
theorem Calm.record (w : World) {e : Event} (he : e.isCalm = true) : Calm w (w.record e) :=
  .of_event rfl rfl rfl rfl he

/-- What is only noted down is calm. -/
theorem calm_of_notes {w w' : World} (h : Notes w w') : Calm w w' := by
  obtain ⟨notes, hlog, hnotes⟩ := h.log
  refine ⟨h.critical, by rw [h.childList], fun pid => h.procs ▸ .refl _, notes, hlog,
    fun e he => ?_⟩
  have hnote := hnotes e he
  cases e <;> first | rfl | cases hnote

/-- A `waitpid()` lets a process go onward, at most. -/
theorem calm_waitNohang {w w₁ : World} {pid : ℕ} {wp : WaitResult}
    (h : w.waitNohang pid = (wp, w₁)) : Calm w w₁ := by
  have hprocs := onward_waitNohang h
  obtain rfl | ⟨p, rfl⟩ := waitNohang_eq_setProc h
  · exact .refl _
  · exact ⟨rfl, rfl, hprocs, [], rfl, nofun⟩

/-- Storing an exit status is calm. -/
theorem calm_collectExitStatus (w : World) (status : Sexp) (wp : WaitResult) :
    Calm w (w.collectExitStatus status wp) := by
  obtain ⟨_, heq⟩ | ⟨fd, _, heq⟩ := collectExitStatus_cases w status wp
  · rw [heq]
    exact .of_eq rfl rfl rfl rfl
  · rw [heq]
    exact .of_event rfl rfl rfl rfl rfl

/-- A child exits. -/
theorem calm_exit {w : World} {pid : ℕ} (hrun : w.procs pid = .running) (stat : WStat) :
    Calm w (w.setProc pid (.zombie stat)) := by
  have hgone : Onward (w.procs pid) (.zombie stat) := by
    refine ⟨fun _ => nofun, fun hreaped => ?_⟩
    rw [hrun] at hreaped
    cases hreaped
  exact ⟨rfl, rfl, onward_setProc hgone, [], rfl, nofun⟩

variable {α ρ : Type}

/-- An action whose steps are calm. -/
def CalmAct (a : Act ρ) : Prop := ∀ w c r w', a w c = some (r, w') → Calm w w'

/-- Actions that only note something down are calm. -/
theorem calmAct_of_noteAct {ρ : Type} (a : Act ρ) (h : NoteAct a) : CalmAct a :=
  fun w c r w' ha => calm_of_notes (h w c r w' ha)

/-- A `waitpid()` that blocks is calm. -/
theorem calmAct_waitpidBlocking (site : WaitSite) (s : Sexp) (pid : ℕ) :
    CalmAct (waitpidBlocking site s pid) := by
  intro w c wp w' h
  obtain ⟨_, w₁, hwait, rfl⟩ := waitpidBlocking_cases h
  exact (calm_waitNohang hwait).trans (.record _ rfl)

/-- All that a finalizer does is calm. -/
theorem allows_calmAct : Allows CalmAct where
  note := calmAct_of_noteAct
  kill site s target sig w c r w' h := by
    obtain rfl := kill_eq_record h
    exact .record w rfl
  waitpid site s pid w c wp w' h := by
    obtain ⟨_, rfl⟩ | ⟨w₁, hwait, rfl⟩ := waitpid_cases h
    · exact .refl _
    · exact (calm_waitNohang hwait).trans (.record _ rfl)
  waitpidBlocking := calmAct_waitpidBlocking
  collectExitStatus s wp := by
    rintro w c r w' ⟨⟩
    exact calm_collectExitStatus w s wp
  callOnExit w c registered w' h := by
    obtain ⟨_, rfl⟩ | ⟨frame, frames, _, _, rfl⟩ := callOnExit_cases h
    · exact .record w rfl
    · exact .of_eq rfl rfl rfl rfl
  makeWaitpipe s w c made w' h := by
    obtain ⟨_, rfl⟩ | ⟨r, wr, handle, _, _, _, _, _, rfl⟩ := makeWaitpipe_cases h
    · exact .refl _
    · exact .of_eq rfl rfl rfl rfl
  saveWaitpipe r wr w c u w' h := by
    unfold saveWaitpipe at h
    split at h <;> cases h
    · exact .of_eq rfl rfl rfl rfl
    · exact .refl _
  clearWaitpipe s := by
    rintro w c r w' ⟨⟩
    exact .of_eq rfl rfl rfl rfl
  closeFd fd := by
    rintro w c r w' ⟨⟩
    exact .of_event rfl rfl rfl rfl rfl
  pushContext := by
    rintro w c r w' ⟨⟩
    exact .of_eq rfl rfl rfl rfl
  popContext := by
    rintro w c r w' ⟨⟩
    exact .of_eq rfl rfl rfl rfl
  handleDestroy s w c r w' h := by
    unfold handleDestroy at h
    dsimp only at h
    split at h <;> cases h
    · exact .of_eq rfl rfl rfl rfl
    · exact .of_event rfl rfl rfl rfl rfl

/-- The invariant inside and outside of the critical section. -/
structure Watch (inside : Bool) (w : World) : Prop where
  critical : w.critical = inside
  present : ∀ s pid, .linked s pid ∈ w.log → w.procs pid ≠ .absent
  nodes : ∀ pid ∈ w.childList.map Node.pid, w.procs pid ≠ .absent
  blocked : inside = true → NoFinalizers w.log → w.blocked = true
  seen : NoFinalizers w.log → ExitsSeen w

/-- Without finalizers in the whole log there are none in its older part. -/
theorem NoFinalizers.older {new log : List Event} (h : NoFinalizers (new ++ log)) :
    NoFinalizers log := fun dead hdead => h dead (List.mem_append_right _ hdead)

/-- What was linked before calm events. -/
theorem linked_of_append {new log : List Event} (hnew : ∀ e ∈ new, e.isCalm = true) {s : Sexp}
    {pid : ℕ} (h : .linked s pid ∈ new ++ log) : .linked s pid ∈ log := by
  rcases List.mem_append.mp h with h | h
  · cases hnew _ h
  · exact h

/-- A child that has been handled stays so. -/
theorem Handled.onward {pid : ℕ} {w w' : World} (h : Handled pid w)
    (hproc : Onward (w.procs pid) (w'.procs pid)) (hlog : w.log ⊆ w'.log) : Handled pid w' := by
  obtain ⟨hreaped, pids, hhandler, hpid⟩ := h
  exact ⟨hproc.reaped hreaped, pids, hlog hhandler, hpid⟩

/-- Calm steps do not hide an exit. -/
theorem ExitsSeen.calm {w w' : World} (h : ExitsSeen w) (hstep : Calm w w') : ExitsSeen w' := by
  obtain ⟨new, hlog, hnew⟩ := hstep.log
  refine ⟨fun pids hpids => ?_, fun s pid hlinked => ?_⟩
  · rw [hlog] at hpids
    rcases List.mem_append.mp hpids with hpids | hpids
    · cases hnew _ hpids
    · exact h.outside pids hpids
  · rw [hlog] at hlinked
    rw [hstep.pids]
    refine (h.listed s pid (linked_of_append hnew hlinked)).imp_right fun hhandled => ?_
    exact hhandled.onward (hstep.procs pid) fun e he => hlog ▸ List.mem_append_right _ he

/-- Calm steps keep the invariant, if they leave the mask alone or a finalizer has run. -/
theorem Watch.calm {inside : Bool} {w w' : World} (h : Watch inside w) (hstep : Calm w w')
    (hmask : inside = true → NoFinalizers w'.log → w'.blocked = w.blocked) : Watch inside w' := by
  have hseen : NoFinalizers w'.log → ExitsSeen w' := by
    intro hquiet
    obtain ⟨new, hlog, _⟩ := hstep.log
    exact (h.seen (hlog ▸ hquiet).older).calm hstep
  obtain ⟨new, hlog, hnew⟩ := hstep.log
  refine ⟨hstep.critical.trans h.critical, fun s pid hlinked => ?_, fun pid hpid => ?_,
    fun hin hquiet => ?_, hseen⟩
  · rw [hlog] at hlinked
    exact (hstep.procs pid).present (h.present s pid (linked_of_append hnew hlinked))
  · rw [hstep.pids] at hpid
    exact (hstep.procs pid).present (h.nodes pid hpid)
  · rw [hmask hin hquiet]
    exact h.blocked hin (hlog ▸ hquiet).older

/-- What the handler leaves alone, and what it records. -/
structure HandlerRun (w w' : World) : Prop where
  critical : w'.critical = w.critical
  kept : w'.childList.Sublist w.childList
  procs : ∀ pid, Onward (w.procs pid) (w'.procs pid)
  reaped : ∀ node ∈ w.childList, node ∈ w'.childList ∨ (w'.procs node.pid).isReaped = true
  log : ∃ closes, w'.log = closes ++ .handler w.critical (w.childList.map Node.pid) :: w.log ∧
    ∀ e ∈ closes, e.isCalm = true

/-- A run of the handler is such a step. -/
theorem handlerRun_sigchldCallback {w : World}
    (hpresent : ∀ pid ∈ w.childList.map Node.pid, w.procs pid ≠ .absent) :
    HandlerRun w w.sigchldCallback := by
  generalize hstart : w.record (.handler w.critical (w.childList.map Node.pid)) = w₀
  have hlist : w₀.childList = w.childList := by
    rw [← hstart]
    rfl
  have hprocs : w₀.procs = w.procs := by
    rw [← hstart]
    rfl
  have hpresent' : ∀ node ∈ w.childList, w₀.procs node.pid ≠ .absent := by
    intro node hnode
    rw [hprocs]
    exact hpresent node.pid (List.mem_map_of_mem hnode)
  obtain ⟨honward, hnodes⟩ := reaped_of_reapChildren w.childList w₀ hpresent'
  have hcalm : ∀ w₁ node wp w₂, Calm w₀ w₁ → node ∈ w₁.childList →
      w₁.waitNohang node.pid = (wp, w₂) → wp ≠ .none → Calm w₀ (w₂.childExited node wp) := by
    intro w₁ node wp w₂ h _ hwait _
    refine (h.trans (calm_waitNohang hwait)).trans ?_
    obtain ⟨closes, hlog, hcloses⟩ := log_childExited w₂ node wp
    refine ⟨?_, by rw [childList_childExited], fun pid => ?_, closes, hlog, fun e he => ?_⟩
    · have hcollect := (calm_collectExitStatus w₂ node.status wp).critical
      obtain ⟨_, heq⟩ | ⟨_, _, _, heq⟩ | ⟨_, _, _, _, heq⟩ := childExited_cases w₂ node wp
      all_goals rw [heq]
      · exact hcollect
      · exact hcollect
    · rw [procs_childExited]
      exact .refl _
    · obtain ⟨site, fd, before, rfl⟩ := hcloses e he
      rfl
  obtain ⟨hrun, hsub, _⟩ :=
    reapChildren_keeps hcalm w.childList (.refl w₀) (hlist ▸ List.Subset.refl _)
  obtain ⟨closes, hlog, hcloses⟩ := hrun.log
  have heq : w.sigchldCallback = { (w₀.reapChildren w.childList).2 with
      childList := (w₀.reapChildren w.childList).1 } := by
    rw [← hstart]
    rfl
  rw [heq]
  refine ⟨hrun.critical.trans ?_, hsub, fun pid => hprocs ▸ honward pid, hnodes, closes, ?_,
    hcloses⟩
  · rw [← hstart]
    rfl
  · rw [hlog, ← hstart]
    rfl

/-- A run of the handler outside of the critical section. -/
theorem Watch.handlerRun {inside : Bool} {w w' : World} (h : Watch inside w)
    (hrun : HandlerRun w w') (hopen : inside = true → ¬ NoFinalizers w'.log) : Watch inside w' := by
  obtain ⟨closes, hlog, hcloses⟩ := hrun.log
  have hlinked : ∀ {s pid}, .linked s pid ∈ w'.log → .linked s pid ∈ w.log := by
    intro s pid hlinked
    rw [hlog] at hlinked
    rcases List.mem_cons.mp (linked_of_append hcloses hlinked) with heq | hlinked
    · cases heq
    · exact hlinked
  have holder : w.log ⊆ w'.log := by
    intro e he
    rw [hlog]
    exact List.mem_append_right _ (List.mem_cons_of_mem _ he)
  refine ⟨hrun.critical.trans h.critical, fun s pid hl => ?_, fun pid hpid => ?_,
    fun hin hquiet => absurd hquiet (hopen hin), fun hquiet => ?_⟩
  · exact (hrun.procs pid).present (h.present s pid (hlinked hl))
  · exact (hrun.procs pid).present (h.nodes pid ((hrun.kept.map _).subset hpid))
  · have hseen := h.seen fun dead hdead => hquiet dead (holder hdead)
    have houtside : w.critical = false := by
      rw [h.critical]
      cases inside with
      | false => rfl
      | true => exact absurd hquiet (hopen rfl)
    have hhandler : .handler false (w.childList.map Node.pid) ∈ w'.log := by
      rw [hlog, houtside]
      exact List.mem_append_right _ List.mem_cons_self
    refine ⟨fun pids hpids => ?_, fun s pid hl => ?_⟩
    · rw [hlog, houtside] at hpids
      rcases List.mem_append.mp hpids with hpids | hpids
      · cases hcloses _ hpids
      · rcases List.mem_cons.mp hpids with heq | hpids
        · cases heq
        · exact hseen.outside pids hpids
    · rcases hseen.listed s pid (hlinked hl) with hmem | hhandled
      · -- the handler had the child in its list; it has left it there or reaped it
        obtain ⟨node, hnode, rfl⟩ := List.mem_map.mp hmem
        rcases hrun.reaped node hnode with hkept | hreaped
        · exact Or.inl (List.mem_map_of_mem hkept)
        · exact Or.inr ⟨hreaped, _, hhandler, hmem⟩
      · exact Or.inr (hhandled.onward (hrun.procs pid) holder)

/-- A move: a child exits, or the handler runs. -/
theorem calm_or_handlerRun {w w' : World} {m : Move}
    (hpresent : ∀ pid ∈ w.childList.map Node.pid, w.procs pid ≠ .absent)
    (hmove : w.move m = some w') :
    (Calm w w' ∧ w'.blocked = w.blocked) ∨ (w.blocked = false ∧ HandlerRun w w') := by
  cases m with
  | exit pid stat =>
    rw [World.move] at hmove
    by_cases hrun : w.procs pid = .running
    · rw [if_pos hrun] at hmove
      obtain rfl := Option.some.inj hmove
      exact Or.inl ⟨calm_exit hrun stat, rfl⟩
    · rw [if_neg hrun] at hmove
      cases hmove
  | sigchld =>
    rw [World.move] at hmove
    by_cases hopen : (!w.blocked && w.installed) = true
    · rw [if_pos hopen] at hmove
      obtain rfl := Option.some.inj hmove
      rw [Bool.and_eq_true, Bool.not_eq_true'] at hopen
      exact Or.inr ⟨hopen.1, handlerRun_sigchldCallback hpresent⟩
    · rw [if_neg hopen] at hmove
      cases hmove

/-- A move keeps what is recorded, and lets every process go on. -/
theorem onward_move {w w' : World} {m : Move}
    (hpresent : ∀ pid ∈ w.childList.map Node.pid, w.procs pid ≠ .absent)
    (hmove : w.move m = some w') :
    w.log ⊆ w'.log ∧ ∀ pid, Onward (w.procs pid) (w'.procs pid) := by
  rcases calm_or_handlerRun hpresent hmove with ⟨hcalm, _⟩ | ⟨_, hrun⟩
  · obtain ⟨new, hlog, _⟩ := hcalm.log
    exact ⟨fun e he => hlog ▸ List.mem_append_right _ he, hcalm.procs⟩
  · obtain ⟨closes, hlog, _⟩ := hrun.log
    refine ⟨fun e he => ?_, hrun.procs⟩
    rw [hlog]
    exact List.mem_append_right _ (List.mem_cons_of_mem _ he)

/-- The moves keep the invariant: the handler runs inside the critical section only after a
finalizer has unblocked the signal there. -/
theorem Watch.move {inside : Bool} {w w' : World} {m : Move} (h : Watch inside w)
    (hmove : w.move m = some w') : Watch inside w' := by
  rcases calm_or_handlerRun h.nodes hmove with ⟨hcalm, hmask⟩ | ⟨hopen, hrun⟩
  · exact h.calm hcalm fun _ _ => hmask
  · refine h.handlerRun hrun fun hin hquiet => ?_
    have holder := (onward_move h.nodes hmove).1
    have hblocked := h.blocked hin fun dead hdead => hquiet dead (holder hdead)
    rw [hopen] at hblocked
    cases hblocked

/-- What holds at any moment of a run. -/
def SeenIfQuiet (w : World) : Prop := NoFinalizers w.log → ExitsSeen w

/-- Programs that keep the exits seen while no finalizer runs inside the critical section. -/
abbrev Sees (P : World → Prop) (p : Call α) (Q : Except String α → World → Prop) : Prop :=
  Ensures World.move SeenIfQuiet P p Q

/-- The invariant, and a child that exists. -/
structure WatchChild (inside : Bool) (pid : ℕ) (w : World) : Prop where
  watch : Watch inside w
  present : w.procs pid ≠ .absent

/-- The exit of a child is seen, if the signal is not blocked. -/
theorem kept_watch (inside : Bool) : Kept World.move SeenIfQuiet (Watch inside) where
  move _ _ _ hw hmove := hw.move hmove
  safe _ hw := hw.seen

/-- So is that of a child that is not linked yet, as the signal is blocked then. -/
theorem kept_watchChild (inside : Bool) (pid : ℕ) :
    Kept World.move SeenIfQuiet (WatchChild inside pid) where
  move _ _ _ hw hmove :=
    ⟨hw.watch.move hmove, ((onward_move hw.watch.nodes hmove).2 pid).present hw.present⟩
  safe _ hw := hw.watch.seen

/-- Calm steps outside of the critical section. -/
theorem Watch.calmOutside {w w' : World} (h : Watch false w) (hstep : Calm w w') :
    Watch false w' := h.calm hstep nofun

/-- A program of calm actions outside of the critical section. -/
theorem sees_calm {p : Call α} (hp : p.Each CalmAct) :
    Sees (Watch false) p (fun _ => Watch false) :=
  Ensures.each (kept_watch false)
    (hp.mono fun _ ha w c r w' hw h => hw.calmOutside (ha w c r w' h))

/-- A calm action outside of the critical section. -/
theorem Sees.step {a : Act ρ} (ha : CalmAct a) {f : ρ → Call α}
    {Q : Except String α → World → Prop} (hf : ∀ r, Sees (Watch false) (f r) Q) :
    Sees (Watch false) (Prog.lift a >>= f) Q :=
  Ensures.step (kept_watch false) (fun _ => Watch false)
    (fun w c r w' hw h => hw.calmOutside (ha w c r w' h)) hf

/-- A calm action inside of the critical section that leaves the mask alone. -/
theorem Sees.stepInside {pid : ℕ} {a : Act ρ} (ha : CalmAct a)
    (hmask : ∀ w c r w', a w c = some (r, w') → w'.blocked = w.blocked) {f : ρ → Call α}
    {Q : Except String α → World → Prop}
    (hf : ∀ r, Sees (WatchChild true pid) (f r) Q) :
    Sees (WatchChild true pid) (Prog.lift a >>= f) Q := by
  refine Ensures.step (kept_watchChild true pid) (fun _ => WatchChild true pid) ?_ hf
  intro w c r w' hw h
  have hcalm := ha w c r w' h
  exact ⟨hw.watch.calm hcalm fun _ _ => hmask w c r w' h, (hcalm.procs pid).present hw.present⟩

/-- Garbage collection is calm, but for the finalizers that it calls. -/
theorem calmAct_collectGarbage (inUse : Option Sexp) : CalmAct (collectGarbage inUse) := by
  intro w c dead w' h
  unfold collectGarbage at h
  cases c with
  | dead statuses =>
    dsimp only at h
    split at h
    · cases h
    · cases h
      refine ⟨rfl, ?_, fun _ => .refl _, [_], rfl, fun e he => List.mem_singleton.mp he ▸ rfl⟩
      simp only [List.map_map]
      rfl
  | _ => cases h

/-- Garbage may be collected outside of the critical section. -/
theorem gcPoint_sees (rounds : ℕ) (inUse : Option Sexp) :
    Sees (Watch false) (gcPoint rounds inUse) (fun _ => Watch false) :=
  Sees.step (calmAct_collectGarbage inUse) fun dead =>
    sees_calm (runFinalizers_each allows_calmAct rounds dead)

/-- Inside of the critical section a finalizer may unblock the signal; then nothing more is
promised. -/
theorem gcPoint_sees_inside (rounds : ℕ) (inUse : Option Sexp) (pid : ℕ) :
    Sees (WatchChild true pid) (gcPoint rounds inUse) (fun _ => WatchChild true pid) := by
  have hkept := kept_watchChild true pid
  refine Ensures.step hkept (fun dead w => WatchChild true pid w ∧
    (dead ≠ [] → ¬ NoFinalizers w.log)) ?_ fun dead => ?_
  · intro w c dead w' hw h
    have hcalm := calmAct_collectGarbage inUse w c dead w' h
    have hevent : w'.blocked = w.blocked ∧ .finalizers true dead ∈ w'.log := by
      have hcritical := hw.watch.critical
      unfold collectGarbage at h
      cases c with
      | dead statuses =>
        dsimp only at h
        split at h
        · cases h
        · cases h
          rw [hcritical]
          exact ⟨rfl, List.mem_cons_self⟩
      | _ => cases h
    refine ⟨⟨hw.watch.calm hcalm fun _ _ => hevent.1, (hcalm.procs pid).present hw.present⟩, ?_⟩
    exact fun hdead hquiet => hdead (hquiet dead hevent.2)
  · by_cases hdead : dead = []
    · subst hdead
      exact Ensures.conseq (.ret hkept fun _ hw => hw) (fun _ hw => hw.1) fun _ _ hw => hw
    · have hloud : Kept World.move SeenIfQuiet
          (fun w => WatchChild true pid w ∧ ¬ NoFinalizers w.log) := by
        refine ⟨fun w m w' hw hmove => ⟨hkept.move w m w' hw.1 hmove, fun hquiet => ?_⟩,
          fun w hw => hkept.safe w hw.1⟩
        exact hw.2 fun dead hd => hquiet dead ((onward_move hw.1.watch.nodes hmove).1 hd)
      have hrun := runFinalizers_each allows_calmAct rounds dead
      refine Ensures.conseq (Ensures.each hloud (hrun.mono fun a ha w c r w' hw h => ?_))
        (fun w hw => ⟨hw.1, hw.2 hdead⟩) fun _ _ hw => hw.1
      have hcalm := ha w c r w' h
      have hnoisy : ¬ NoFinalizers w'.log := by
        obtain ⟨new, hlog, _⟩ := hcalm.log
        exact fun hquiet => hw.2 (hlog ▸ hquiet).older
      exact ⟨⟨hw.1.watch.calm hcalm fun _ hquiet => absurd hquiet hnoisy,
        (hcalm.procs pid).present hw.1.present⟩, hnoisy⟩

/-- Garbage may be collected before the rest. -/
theorem Sees.afterGc {rounds : ℕ} {inUse : Option Sexp} {f : Unit → Call α}
    (hf : Sees (Watch false) (f ()) (fun _ _ => True)) :
    Sees (Watch false) (gcPoint rounds inUse >>= f) (fun _ _ => True) :=
  (gcPoint_sees rounds inUse).bind (fun _ => hf) fun _ _ _ => trivial

/-- In the end nothing has to be known. -/
theorem sees_end {P : World → Prop} {p : Call α} {Q : Except String α → World → Prop}
    (h : Sees P p Q) : Sees P p (fun _ _ => True) :=
  h.conseq (fun _ hw => hw) fun _ _ _ => trivial

/-- Storing the number of a child is calm. -/
theorem calmAct_storePid (s : Sexp) (pid : ℕ) : CalmAct (storePid s pid) := by
  rintro w c r w' ⟨⟩
  exact .of_event rfl rfl rfl rfl rfl

/-- So is the descriptor of a pseudo terminal. -/
theorem calmAct_openPtyChild (s : Sexp) (pty : Bool) : CalmAct (openPtyChild s pty) := by
  intro w c u w' h
  unfold openPtyChild at h
  split at h
  · split at h
    · cases h
      exact .of_eq rfl rfl rfl rfl
    · cases h
  · cases h
    exact .of_eq rfl rfl rfl rfl

/-- The descriptor of a pseudo terminal does not touch the mask. -/
theorem blocked_openPtyChild (s : Sexp) (pty : Bool) (w : World) (c : Choice) (u : Unit)
    (w' : World) (h : openPtyChild s pty w c = some (u, w')) : w'.blocked = w.blocked := by
  unfold openPtyChild at h
  split at h
  · split at h <;> cases h
    rfl
  · cases h
    rfl

/-- A new handle is calm. -/
theorem calmAct_makeHandle (cleanup : Bool) (cleanupGrace : ℤ) :
    CalmAct (makeHandle cleanup cleanupGrace) := by
  intro w c made w' h
  unfold makeHandle at h
  split at h <;> cases h
  · exact .of_eq rfl rfl rfl rfl
  · exact .refl w

/-- No exit is lost at the end of `processx_exec()`. -/
theorem finishExec_sees (rounds : ℕ) (s : Sexp) (pid : ℕ) (started : Bool) :
    Sees (Watch false) (finishExec rounds s pid started) (fun _ _ => True) := by
  refine Sees.afterGc
    (sees_end (sees_calm (.step (calmAct_of_noteAct _ noteAct_sysCall) fun ok => ?_)))
  split
  · trivial
  · split
    · exact .step (calmAct_storePid s pid) fun _ => trivial
    · trivial

/-- Nor while it waits for the message of the child. -/
theorem awaitExec_sees (rounds : ℕ) (s : Sexp) (pid : ℕ) :
    Sees (Watch false) (awaitExec rounds s pid) (fun _ _ => True) := by
  have hwait := calmAct_waitpidBlocking .exec s pid
  refine Sees.step (calmAct_of_noteAct _ noteAct_readSignalPipe) fun r => ?_
  cases r with
  | eof => exact finishExec_sees rounds s pid true
  | errno => exact Sees.step hwait fun _ => finishExec_sees rounds s pid false
  | epipe => exact Sees.step hwait fun _ => finishExec_sees rounds s pid true
  | other => exact sees_end (sees_calm (p := .throw _) trivial)

/-- The end of the critical section when the child could not be started. -/
theorem watch_unblockAfterFailure {w w' : World} {c : Choice} {u : Unit} (hw : Watch true w)
    (h : unblockAfterFailure w c = some (u, w')) : Watch false w' := by
  cases h
  have hopened : Watch false { w with blocked := false, critical := false } :=
    ⟨rfl, hw.present, hw.nodes, nofun, fun hquiet =>
      ⟨(hw.seen hquiet).outside, (hw.seen hquiet).listed⟩⟩
  have hunblocked : Calm { w with blocked := false, critical := false }
      ({ w with blocked := false, critical := false }.record .unblocked) := .record _ rfl
  exact hopened.calmOutside (hunblocked.trans (.record _ rfl))

/-- R throws inside of the critical section, or it goes on there. -/
theorem watch_leaves {pid : ℕ} {w w' : World} {c : Choice} {left : Bool}
    (hw : WatchChild true pid w) (h : leaves w c = some (left, w')) :
    if left then Watch false w' else WatchChild true pid w' := by
  have hout : Watch false { w with critical := false } :=
    ⟨rfl, hw.watch.present, hw.watch.nodes, nofun, fun hquiet =>
      ⟨(hw.watch.seen hquiet).outside, (hw.watch.seen hquiet).listed⟩⟩
  unfold leaves at h
  cases c with
  | ok =>
    cases h
    exact hw
  | _ =>
    cases h
    exact hout

/-- Such a step, and then the rest if R has not thrown. -/
theorem Sees.leaves {pid : ℕ} {f : Bool → Call α} {msg : String} (hthrow : f true = .throw msg)
    (hf : Sees (WatchChild true pid) (f false) (fun _ _ => True)) :
    Sees (WatchChild true pid) (Prog.lift leaves >>= f) (fun _ _ => True) := by
  refine Ensures.step (kept_watchChild true pid)
    (fun left w => if left then Watch false w else WatchChild true pid w)
    (fun _ _ _ _ hw h => watch_leaves hw h) fun left => ?_
  cases left with
  | true =>
    rw [hthrow]
    exact sees_end (sees_calm (p := .throw _) trivial)
  | false => exact hf

/-- The end of the critical section: the child is in the list. -/
theorem watch_linkChild {s : Sexp} {pid : ℕ} {w w' : World} {c : Choice} {u : Unit}
    (hw : WatchChild true pid w) (h : linkChild s pid w c = some (u, w')) : Watch false w' := by
  cases h
  refine ⟨rfl, fun s' n hn => ?_, fun n hn => ?_, nofun, fun hquiet => ⟨fun pids hpids => ?_,
    fun s' n hn => ?_⟩⟩
  · rcases List.mem_cons.mp hn with heq | hn
    · cases heq
      exact hw.present
    · exact hw.watch.present s' n hn
  · rcases List.mem_cons.mp hn with rfl | hn
    · exact hw.present
    · exact hw.watch.nodes n hn
  all_goals
    have hseen := hw.watch.seen fun dead hdead => hquiet dead (List.mem_cons_of_mem _ hdead)
  · rcases List.mem_cons.mp hpids with heq | hpids
    · cases heq
    · exact hseen.outside pids hpids
  · rcases List.mem_cons.mp hn with heq | hn
    · cases heq
      exact Or.inl List.mem_cons_self
    · rcases hseen.listed s' n hn with hmem | hhandled
      · exact Or.inl (List.mem_cons_of_mem _ hmem)
      · exact Or.inr (hhandled.onward (.refl _) (List.subset_cons_self _ _))

/-- Nor from the node of the child list to the end. -/
theorem linkAndAwait_sees (rounds : ℕ) (s : Sexp) (pid : ℕ) :
    Sees (WatchChild true pid) (linkAndAwait rounds s pid) (fun _ _ => True) := by
  refine (gcPoint_sees_inside rounds (some s) pid).bind (fun _ => ?_) fun _ _ _ => trivial
  refine Sees.leaves rfl ?_
  refine Ensures.step (kept_watchChild true pid) (fun _ => Watch false)
    (fun _ _ _ _ hw h => watch_linkChild hw h) fun _ => ?_
  exact Sees.step (calmAct_of_noteAct _ noteAct_unblockSigchld) fun _ =>
    awaitExec_sees rounds s pid

/-- Nor from the fork to the end, as the signal is blocked until the child has its node. -/
theorem addChild_sees (rounds : ℕ) (s : Sexp) (pid : ℕ) (pty : Bool) :
    Sees (WatchChild true pid) (addChild rounds s pid pty) (fun _ _ => True) := by
  refine (gcPoint_sees_inside rounds (some s) pid).bind (fun _ => ?_) fun _ _ _ => trivial
  refine Sees.leaves rfl ?_
  refine Sees.stepInside (calmAct_openPtyChild s pty) (blocked_openPtyChild s pty) fun _ => ?_
  refine Sees.stepInside (calmAct_of_noteAct _ noteAct_sysCall) ?_ fun ok => ?_
  · rintro w c r w' ⟨⟩
    rfl
  cases ok with
  | false =>
    exact Ensures.step (kept_watchChild true pid) (fun _ => Watch false)
      (fun _ _ _ _ hw h => watch_unblockAfterFailure hw.watch h)
      fun _ => sees_end (sees_calm (p := .throw _) trivial)
  | true => exact linkAndAwait_sees rounds s pid

/-- The pipes of a child are calm. -/
theorem makeSocketpairs_calm (outputs : List Output) : (makeSocketpairs outputs).Each CalmAct := by
  induction outputs with
  | nil => trivial
  | cons output outputs ih =>
    rw [makeSocketpairs]
    split
    · refine .step (calmAct_of_noteAct _ noteAct_sysCall) fun ok => ?_
      split
      · trivial
      · exact ih
    · exact ih

/-- The child comes into being inside the critical section. -/
theorem watch_fork {s : Sexp} {w w' : World} {c : Choice} {child : Option ℕ} (hw : Watch true w)
    (h : fork s w c = some (child, w')) :
    Watch true w' ∧ ∀ pid, child = some pid → w'.procs pid ≠ .absent := by
  unfold fork at h
  cases c with
  | pid n =>
    dsimp only at h
    split at h
    next hn =>
      cases h
      have honward : ∀ pid, Onward (w.procs pid) ((w.setProc n .running).procs pid) := by
        refine onward_setProc ⟨fun _ => nofun, fun hreaped => ?_⟩
        rw [hn.2] at hreaped
        cases hreaped
      have hrunning : (w.setProc n .running).procs n ≠ .absent := by
        simp [World.setProc]
      refine ⟨⟨hw.critical, fun s' pid hl => ?_, fun pid hpid => ?_, fun hin hquiet => ?_,
        fun hquiet => ⟨fun pids hpids => ?_, fun s' pid hl => ?_⟩⟩, ?_⟩
      · rcases List.mem_cons.mp hl with heq | hl
        · cases heq
        · exact (honward pid).present (hw.present s' pid hl)
      · exact (honward pid).present (hw.nodes pid hpid)
      · exact hw.blocked hin fun dead hdead => hquiet dead (List.mem_cons_of_mem _ hdead)
      · have hseen := hw.seen fun dead hdead => hquiet dead (List.mem_cons_of_mem _ hdead)
        rcases List.mem_cons.mp hpids with heq | hpids
        · cases heq
        · exact hseen.outside pids hpids
      · have hseen := hw.seen fun dead hdead => hquiet dead (List.mem_cons_of_mem _ hdead)
        rcases List.mem_cons.mp hl with heq | hl
        · cases heq
        · refine (hseen.listed s' pid hl).imp_right fun hhandled => ?_
          exact hhandled.onward (honward pid) (List.subset_cons_self _ _)
      · rintro pid ⟨⟩
        exact hrunning
    next => cases h
  | fail =>
    cases h
    exact ⟨hw, nofun⟩
  | _ => cases h

/-- No exit is lost from the pipes of a child to its start. -/
theorem startChild_sees (rounds : ℕ) (s : Sexp) (connections : List Output) (pty : Bool) :
    Sees (Watch false) (startChild rounds s connections pty) (fun _ _ => True) := by
  refine Sees.afterGc (Sees.step (calmAct_of_noteAct _ (noteAct_openPty pty)) fun ok => ?_)
  split
  · exact sees_end (sees_calm (p := .throw _) trivial)
  · refine (sees_calm (makeSocketpairs_calm connections)).bind (fun _ => ?_) fun _ _ _ => trivial
    refine Ensures.step (kept_watch false) (fun _ => Watch true) ?_ fun _ => ?_
    · rintro w c r w' hw ⟨⟩
      exact ⟨rfl, hw.present, hw.nodes, fun _ _ => rfl, fun hquiet =>
        ⟨(hw.seen hquiet).outside, (hw.seen hquiet).listed⟩⟩
    · refine Ensures.step (kept_watch true) (fun child w => Watch true w ∧
        ∀ pid, child = some pid → w.procs pid ≠ .absent)
        (fun _ _ _ _ hw h => watch_fork hw h) fun child => ?_
      cases child with
      | none =>
        refine Ensures.conseq ?_ (fun _ hw => hw.1) fun _ _ hw => hw
        exact Ensures.step (kept_watch true) (fun _ => Watch false)
          (fun _ _ _ _ hw h => watch_unblockAfterFailure hw h)
          fun _ => sees_end (sees_calm (p := .throw _) trivial)
      | some pid =>
        exact (addChild_sees rounds s pid pty).conseq
          (fun w hw => ⟨hw.1, hw.2 pid rfl⟩) fun _ _ hw => hw

/-- No exit is lost by `processx_exec()`. -/
theorem processxExec_sees (rounds : ℕ) (connections : List Output) (pty cleanup : Bool)
    (cleanupGrace : ℤ) :
    Sees (Watch false) (processxExec rounds connections pty cleanup cleanupGrace)
      (fun _ _ => True) := by
  refine Sees.afterGc (Sees.step (calmAct_of_noteAct _ noteAct_sysCall) fun ok => ?_)
  split
  · exact sees_end (sees_calm (p := .throw _) trivial)
  · refine Sees.step (calmAct_of_noteAct _ noteAct_setupSigchld) fun _ => ?_
    refine Sees.step (calmAct_makeHandle cleanup cleanupGrace) fun made => ?_
    cases made with
    | none => exact sees_end (sees_calm (p := .throw _) trivial)
    | some s => exact startChild_sees rounds s connections pty

end Processx
