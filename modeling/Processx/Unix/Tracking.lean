import Processx.Unix.Actions
import Processx.Unix.Session

/-!
# Keeping track of the children

What the package knows about a child, and what has become of it. A status that a
`waitpid()` returned is stored with the handle, except in two places: `processx_signal()`
and the first `waitpid()` of `c_processx_kill()` drop it. The invariant relates the
process, the handle and the statuses dropped so far.
-/

namespace Processx

open Interruptible

/-- A `waitpid()` that returned the status of the child of `s`, in a place where it is not
stored. -/
def Event.drops (s : Sexp) : Event → Bool
  | .waitpid .signal status _ before => decide (status = s) && before.isZombie
  | .waitpid .killCheck status _ before => decide (status = s) && before.isZombie
  | _ => false

/-- Was the status of the child of `s` dropped? -/
def dropped (s : Sexp) (log : List Event) : Bool := log.any (·.drops s)

/-- A status was dropped by the last event or before it. -/
@[simp] theorem dropped_cons (s : Sexp) (e : Event) (log : List Event) :
    dropped s (e :: log) = (e.drops s || dropped s log) := rfl

/-- Notes drop nothing. -/
theorem drops_of_isNote {e : Event} (he : e.isNote = true) (s : Sexp) : e.drops s = false := by
  cases e <;> first | rfl | cases he

/-- Notes drop no status. -/
theorem dropped_append_notes {notes : List Event} (hnotes : ∀ e ∈ notes, e.isNote = true)
    (s : Sexp) (log : List Event) : dropped s (notes ++ log) = dropped s log := by
  induction notes with
  | nil => rfl
  | cons e notes ih =>
    rw [List.cons_append, dropped_cons, drops_of_isNote (hnotes e List.mem_cons_self),
      ih fun e he => hnotes e (List.mem_cons_of_mem _ he)]
    rfl

/-- How a child, the stored status and the dropped ones belong together. -/
def Accounted (p : Proc) (collected : Bool) (exitcode : ℤ) (lost : Bool) : Prop :=
  match p, collected with
  | .running, false => lost = false
  | .zombie _, false => lost = false
  | .reaped _, false => lost = true
  | .reaped stat, true => exitcode = if lost then naInteger else stat.exitcode
  | _, _ => False

/-- The handles, the child list and the free list agree with the processes. The handle of
`exempt` may be one whose child was just waited for. -/
structure Tracked (exempt : Option Sexp) (w : World) : Prop where
  accounted : ∀ s h, w.handles s = some h → (exempt = some s → h.collected = true) →
    Accounted (w.procs h.pid) h.collected h.exitcode (dropped s w.log)
  own : ∀ s s' h h', w.handles s = some h → w.handles s' = some h' → h.pid = h'.pid → s = s'
  nodePid : ∀ node, node ∈ w.childList ∨ node ∈ w.freeList → ∀ h, w.nodeHandle node = some h →
    h.pid = node.pid
  nodeOf : ∀ node ∈ w.childList, ∀ s h, w.handles s = some h → h.pid = node.pid →
    s = node.status ∧ node.keyAlive = true
  nodeProc : ∀ node ∈ w.childList, w.procs node.pid ≠ .absent
  free : ∀ node ∈ w.freeList, (w.procs node.pid).isReaped = true

/-- An uncollected child has been reaped only if its status was dropped. -/
theorem Tracked.lost_of_isReaped {w : World} {s : Sexp} {h : Handle} (ht : Tracked none w)
    (hh : w.handles s = some h) (hcollected : h.collected = false)
    (hreaped : (w.procs h.pid).isReaped = true) : dropped s w.log = true := by
  have haccounted := ht.accounted s h hh nofun
  rw [hcollected] at haccounted
  cases hproc : w.procs h.pid with
  | reaped stat =>
    rw [hproc] at haccounted
    exact haccounted
  | absent =>
    rw [hproc] at hreaped
    cases hreaped
  | running =>
    rw [hproc] at hreaped
    cases hreaped
  | zombie stat =>
    rw [hproc] at hreaped
    cases hreaped

/-- A collected child has been reaped. -/
theorem Tracked.reaped_of_collected {exempt : Option Sexp} {w : World} {s : Sexp} {h : Handle}
    (ht : Tracked exempt w) (hh : w.handles s = some h) (hcollected : h.collected = true) :
    ∃ stat, w.procs h.pid = .reaped stat := by
  have haccounted := ht.accounted s h hh fun _ => hcollected
  rw [hcollected] at haccounted
  cases hproc : w.procs h.pid with
  | reaped stat => exact ⟨stat, rfl⟩
  | absent =>
    rw [hproc] at haccounted
    cases haccounted
  | running =>
    rw [hproc] at haccounted
    cases haccounted
  | zombie stat =>
    rw [hproc] at haccounted
    cases haccounted

/-- The child of a handle was started. -/
theorem Tracked.started {w : World} {s : Sexp} {h : Handle} (ht : Tracked none w)
    (hh : w.handles s = some h) : w.procs h.pid ≠ .absent := by
  intro hproc
  have haccounted := ht.accounted s h hh nofun
  rw [hproc] at haccounted
  exact haccounted

/-- The rule for steps that change no process. Handles may disappear. -/
theorem Tracked.change {exempt exempt' : Option Sexp} {w w' : World} (ht : Tracked exempt w)
    (hprocs : w'.procs = w.procs)
    (hhandles : ∀ s h', w'.handles s = some h' → ∃ h, w.handles s = some h ∧ h.pid = h'.pid)
    (haccounted : ∀ s h', w'.handles s = some h' → (exempt' = some s → h'.collected = true) →
      Accounted (w.procs h'.pid) h'.collected h'.exitcode (dropped s w'.log))
    (hlist : w'.childList ⊆ w.childList) (hfree : w'.freeList ⊆ w.freeList) :
    Tracked exempt' w' where
  accounted s h' hh' hexempt := by
    rw [hprocs]
    exact haccounted s h' hh' hexempt
  own s s' h h' hh hh' hpid := by
    obtain ⟨h₁, hh₁, hpid₁⟩ := hhandles s h hh
    obtain ⟨h₂, hh₂, hpid₂⟩ := hhandles s' h' hh'
    exact ht.own s s' h₁ h₂ hh₁ hh₂ (hpid₁.trans (hpid.trans hpid₂.symm))
  nodePid node hnode h' hh' := by
    unfold World.nodeHandle at hh'
    split at hh'
    next halive =>
      obtain ⟨h, hh, hpid⟩ := hhandles _ h' hh'
      rw [← hpid]
      exact ht.nodePid node (hnode.imp (hlist ·) (hfree ·)) h ((if_pos halive).trans hh)
    next => cases hh'
  nodeOf node hnode s h' hh' hpid' := by
    obtain ⟨h, hh, hpid⟩ := hhandles s h' hh'
    exact ht.nodeOf node (hlist hnode) s h hh (hpid.trans hpid')
  nodeProc node hnode := by
    rw [hprocs]
    exact ht.nodeProc node (hlist hnode)
  free node hnode := by
    rw [hprocs]
    exact ht.free node (hfree hnode)

/-- The same for steps that change no handle either, besides its descriptors. -/
theorem Tracked.same {exempt : Option Sexp} {w w' : World} (ht : Tracked exempt w)
    (hprocs : w'.procs = w.procs)
    (hhandles : ∀ s h', w'.handles s = some h' → ∃ h, w.handles s = some h ∧ h.pid = h'.pid ∧
      h.collected = h'.collected ∧ h.exitcode = h'.exitcode)
    (hdropped : ∀ s, dropped s w'.log = dropped s w.log)
    (hlist : w'.childList ⊆ w.childList) (hfree : w'.freeList ⊆ w.freeList) :
    Tracked exempt w' := by
  refine ht.change hprocs (fun s h' hh' => ?_) (fun s h' hh' hexempt => ?_) hlist hfree
  · obtain ⟨h, hh, hpid, _⟩ := hhandles s h' hh'
    exact ⟨h, hh, hpid⟩
  · obtain ⟨h, hh, hpid, hcollected, hexitcode⟩ := hhandles s h' hh'
    rw [hdropped, ← hpid, ← hcollected, ← hexitcode]
    exact ht.accounted s h hh fun he => hcollected.trans (hexempt he)

/-- The rule for steps that change one process. If it is the child of a handle, the handle
becomes exempt. -/
theorem Tracked.setProc {exempt exempt' : Option Sexp} {w : World} {pid : ℕ} {p : Proc}
    (ht : Tracked exempt w) (hp : p ≠ .absent) (hfree : (w.procs pid).isReaped = false ∨
      p.isReaped = true)
    (haccounted : ∀ s h, w.handles s = some h → (exempt' = some s → h.collected = true) →
      Accounted (if h.pid = pid then p else w.procs h.pid) h.collected h.exitcode
        (dropped s w.log)) :
    Tracked exempt' (w.setProc pid p) where
  accounted := haccounted
  own := ht.own
  nodePid := ht.nodePid
  nodeOf := ht.nodeOf
  nodeProc node hnode := by
    change (if node.pid = pid then p else w.procs node.pid) ≠ .absent
    split
    · exact hp
    · exact ht.nodeProc node hnode
  free node hnode := by
    change (if node.pid = pid then p else w.procs node.pid).isReaped = true
    have hreaped := ht.free node hnode
    split
    next heq =>
      rw [heq] at hreaped
      rcases hfree with hnot | hp
      · rw [hnot] at hreaped
        cases hreaped
      · exact hp
    next => exact hreaped

/-- A child exits. -/
theorem Tracked.exit {exempt : Option Sexp} {w : World} {pid : ℕ} {stat : WStat}
    (ht : Tracked exempt w) (hrun : w.procs pid = .running) :
    Tracked exempt (w.setProc pid (.zombie stat)) := by
  refine ht.setProc nofun (Or.inl (by rw [hrun]; rfl)) fun s h hh hexempt => ?_
  have haccounted := ht.accounted s h hh hexempt
  split
  next heq =>
    rw [heq, hrun] at haccounted
    cases hcollected : h.collected <;> rw [hcollected] at haccounted <;> exact haccounted
  next => exact haccounted

/-- A child is waited for: its handle becomes exempt. -/
theorem Tracked.reap {w : World} {s : Sexp} {pid : ℕ} {stat : WStat} (ht : Tracked none w)
    (hzombie : w.procs pid = .zombie stat)
    (hs : ∀ s' h', w.handles s' = some h' → h'.pid = pid → s' = s) :
    Tracked (some s) (w.setProc pid (.reaped stat)) := by
  refine ht.setProc nofun (Or.inr rfl) fun s' h' hh' hexempt => ?_
  have haccounted := ht.accounted s' h' hh' nofun
  split
  next heq =>
    obtain rfl := hs s' h' hh' heq
    have hcollected := hexempt rfl
    rw [heq, hzombie, hcollected] at haccounted
    cases haccounted
  next => exact haccounted

/-- A child that has no handle is waited for. -/
theorem Tracked.reapUnknown {w : World} {pid : ℕ} {stat : WStat} (ht : Tracked none w)
    (hs : ∀ s' h', w.handles s' = some h' → h'.pid ≠ pid) :
    Tracked none (w.setProc pid (.reaped stat)) := by
  refine ht.setProc nofun (Or.inr rfl) fun s' h' hh' _ => ?_
  rw [if_neg (hs s' h' hh')]
  exact ht.accounted s' h' hh' nofun

/-- Every handle may be exempt. -/
theorem Tracked.weaken {w : World} (ht : Tracked none w) (s : Sexp) : Tracked (some s) w :=
  { ht with accounted := fun s' h' hh' _ => ht.accounted s' h' hh' nofun }

/-- If the answer of a `waitpid()` is stored with the handle, the child is accounted for. -/
def Storable (w : World) (s : Sexp) (h : Handle) (wp : WaitResult) : Prop :=
  h.collected = false → Accounted (w.procs h.pid) true wp.exitcode (dropped s w.log)

/-- A waitpid for the child of a handle: it runs, or it has been reaped afterwards and the
answer can be stored. -/
theorem Tracked.waitNohang {w w₁ : World} {s : Sexp} {h : Handle} {wp : WaitResult}
    (ht : Tracked none w) (hh : w.handles s = some h) (hwait : w.waitNohang h.pid = (wp, w₁)) :
    (wp = .none ∧ w₁ = w ∧ w.procs h.pid = .running) ∨
    (wp ≠ .none ∧ wp ≠ .error ∧ Tracked (some s) w₁ ∧ (w₁.procs h.pid).isReaped = true ∧
      Storable w₁ s h wp ∧ w₁.handles = w.handles ∧ w₁.log = w.log ∧
      (wp = .echild → w₁ = w)) := by
  have haccounted := ht.accounted s h hh nofun
  obtain ⟨rfl, rfl, hrun⟩ | ⟨stat, rfl, hzombie, rfl⟩ | ⟨rfl, rfl, ⟨stat, hreaped⟩ | habsent⟩ :=
    waitNohang_cases hwait
  · exact Or.inl ⟨rfl, rfl, hrun⟩
  · have hprocs : (w.setProc h.pid (.reaped stat)).procs h.pid = .reaped stat := if_pos rfl
    refine Or.inr ⟨nofun, nofun, ht.reap hzombie fun s' h' hh' hpid => ?_, ?_, fun hcollected => ?_,
      rfl, rfl, nofun⟩
    · exact ht.own s' s h' h hh' hh hpid
    · rw [hprocs]
      rfl
    · rw [hcollected, hzombie] at haccounted
      have hlost : dropped s w.log = false := haccounted
      rw [hprocs]
      change _ = if dropped s w.log = true then _ else _
      rw [hlost]
      rfl
  · refine Or.inr ⟨nofun, nofun, ht.weaken s, ?_, fun hcollected => ?_, rfl, rfl, fun _ => rfl⟩
    · rw [hreaped]
      rfl
    · rw [hcollected, hreaped] at haccounted
      have hlost : dropped s w₁.log = true := haccounted
      rw [hreaped, hlost]
      rfl
  · exact absurd habsent (ht.started hh)

/-- Storing such an answer. -/
theorem Tracked.collect {w : World} {s : Sexp} {h : Handle} {wp : WaitResult}
    (ht : Tracked (some s) w) (hh : w.handles s = some h) (hstorable : Storable w s h wp) :
    Tracked none (w.collectExitStatus s wp) := by
  have hdropped : ∀ s', dropped s' (w.collectExitStatus s wp).log = dropped s' w.log := by
    intro s'
    obtain heq | ⟨fd, before, heq⟩ := log_collectExitStatus w s wp <;> rw [heq]
    rfl
  have hpid : (h.collect wp).pid = h.pid := by
    unfold Handle.collect
    split <;> rfl
  refine ht.change (procs_collectExitStatus w s wp) (fun s' h' hh' => ?_)
    (fun s' h' hh' _ => ?_) (by simp) (by simp)
  · rw [handles_collectExitStatus] at hh'
    split at hh'
    next heq =>
      rw [heq, hh] at hh'
      obtain rfl := Option.some.inj hh'
      exact ⟨h, heq ▸ hh, hpid.symm⟩
    next => exact ⟨h', hh', rfl⟩
  · rw [hdropped]
    rw [handles_collectExitStatus] at hh'
    split at hh'
    next heq =>
      subst heq
      rw [hh, Option.map_some] at hh'
      obtain rfl := Option.some.inj hh'
      rw [hpid]
      cases hcollected : h.collected with
      | false =>
        have hnew : h.collect wp =
            { h with exitcode := wp.exitcode, collected := true, ptyChildFd := none } :=
          if_neg (by rw [hcollected]; exact nofun)
        rw [hnew]
        exact hstorable hcollected
      | true =>
        have hold : h.collect wp = h := if_pos hcollected
        rw [hold]
        exact ht.accounted s' h hh fun _ => hcollected
    next hne => exact ht.accounted s' h' hh' fun he => absurd (Option.some.inj he).symm hne

/-- A node whose child has been reaped may go to the free list. -/
theorem Tracked.freed {w : World} {node : Node} (ht : Tracked none w)
    (hnode : node ∈ w.childList) (hreaped : (w.procs node.pid).isReaped = true) :
    Tracked none { w with freeList := node :: w.freeList } :=
  { ht with
    nodePid := fun n hn => by
      rcases hn with hn | hn
      · exact ht.nodePid n (Or.inl hn)
      · rcases List.mem_cons.mp hn with rfl | hn
        · exact ht.nodePid n (Or.inl hnode)
        · exact ht.nodePid n (Or.inr hn)
    free := fun n hn => by
      rcases List.mem_cons.mp hn with rfl | hn
      · exact hreaped
      · exact ht.free n hn }

/-- The handler stores the status of a child whose handle is there. -/
theorem Tracked.collectNode {w w₁ : World} {node : Node} {h : Handle} {wp : WaitResult}
    (ht : Tracked none w) (hnode : node ∈ w.childList) (hwait : w.waitNohang node.pid = (wp, w₁))
    (hwp : wp ≠ .none) (hh : w₁.nodeHandle node = some h) :
    Tracked none { w₁.collectExitStatus node.status wp with
      freeList := node :: (w₁.collectExitStatus node.status wp).freeList } := by
  have hhandles : w₁.handles = w.handles := by
    obtain rfl | ⟨p, rfl⟩ := waitNohang_eq_setProc hwait <;> rfl
  have hstatus : w.handles node.status = some h := hhandles ▸ handles_of_nodeHandle hh
  have hpid : h.pid = node.pid := by
    refine ht.nodePid node (Or.inl hnode) h ?_
    rw [World.nodeHandle, ← hhandles]
    exact hh
  rw [← hpid] at hwait
  obtain ⟨hnone, _⟩ | ⟨_, _, hexempt, hreaped, hstorable, _⟩ := ht.waitNohang hstatus hwait
  · exact absurd hnone hwp
  · refine (hexempt.collect (hhandles.symm ▸ hstatus) hstorable).freed ?_ ?_
    · rw [childList_collectExitStatus]
      obtain rfl | ⟨p, rfl⟩ := waitNohang_eq_setProc hwait <;> exact hnode
    rw [procs_collectExitStatus, ← hpid]
    exact hreaped

/-- The work of the handler on one child keeps track of the children. -/
theorem Tracked.childExited {w w₁ : World} {node : Node} {wp : WaitResult} (ht : Tracked none w)
    (hnode : node ∈ w.childList) (hwait : w.waitNohang node.pid = (wp, w₁)) (hwp : wp ≠ .none) :
    Tracked none (w₁.childExited node wp) := by
  obtain ⟨hhandle, heq⟩ | ⟨h, hhandle, _, heq⟩ | ⟨h, fd, hhandle, _, heq⟩ :=
    childExited_cases w₁ node wp
  · rw [heq]
    obtain ⟨rfl, _⟩ | ⟨stat, rfl, hzombie, rfl⟩ | ⟨rfl, rfl, ⟨stat, hreaped⟩ | habsent⟩ :=
      waitNohang_cases hwait
    · exact absurd rfl hwp
    · have hunknown : ∀ s h, w.handles s = some h → h.pid ≠ node.pid := by
        intro s h hh hpid
        obtain ⟨rfl, halive⟩ := ht.nodeOf node hnode s h hh hpid
        have hnodeHandle : w.nodeHandle node = some h := (if_pos halive).trans hh
        exact absurd (hhandle.symm.trans hnodeHandle) nofun
      refine (ht.reapUnknown hunknown).freed hnode ?_
      change (if node.pid = node.pid then _ else _ : Proc).isReaped = true
      rw [if_pos rfl]
      rfl
    · exact ht.freed hnode (by rw [hreaped]; rfl)
    · exact absurd habsent (ht.nodeProc node hnode)
  · rw [heq]
    exact ht.collectNode hnode hwait hwp hhandle
  · rw [heq]
    have hcollected := ht.collectNode hnode hwait hwp hhandle
    refine hcollected.same rfl (fun s h' hh' => ?_) (fun s => rfl)
      (List.Subset.refl _) (List.Subset.refl _)
    by_cases hs : s = node.status
    · subst hs
      have hnew : some { h.collect wp with waitpipe1 := none } = some h' := by
        simpa [World.setHandle] using hh'
      obtain rfl := Option.some.inj hnew
      refine ⟨h.collect wp, ?_, rfl, rfl, rfl⟩
      change (w₁.collectExitStatus node.status wp).handles node.status = _
      rw [handles_collectExitStatus, if_pos rfl, handles_of_nodeHandle hhandle]
      rfl
    · refine ⟨h', ?_, rfl, rfl, rfl⟩
      simpa [World.setHandle, World.close, hs] using hh'

/-- What is known of the children at any moment of a run. -/
theorem Tracked.move {w w' : World} {m : Move} (ht : Tracked none w)
    (hmove : w.move m = some w') : Tracked none w' := by
  refine move_keeps (P := Tracked none) ?_ ?_ ?_ ?_ w m w' ht hmove
  · exact fun w pid stat hw hrun => hw.exit hrun
  · exact fun w hw _ _ => hw.same rfl (fun s h hh => ⟨h, hh, rfl, rfl, rfl⟩) (fun s => rfl)
      (List.Subset.refl _) (List.Subset.refl _)
  · exact fun w node wp w₁ hw hnode hwait hwp => hw.childExited hnode hwait hwp
  · exact fun w kept hw hsub => hw.same rfl (fun s h hh => ⟨h, hh, rfl, rfl, rfl⟩) (fun s => rfl)
      hsub.subset (List.Subset.refl _)

end Processx
