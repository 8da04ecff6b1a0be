import Processx.Unix.Process

/-!
# What the handler does

What storing a status and the work of the handler on one child change, field by field;
and one rule for invariants: what a child's exit keeps, and what the work of the handler
on one child keeps, is kept by everything that happens outside of the main program.
-/

namespace Processx

/-- The exit code that a result of `waitpid()` stands for. -/
def WaitResult.exitcode : WaitResult → ℤ
  | .exited stat => stat.exitcode
  | _ => naInteger

/-- A handle after its status was stored. -/
def Handle.collect (h : Handle) (wp : WaitResult) : Handle :=
  if h.collected then h
  else { h with exitcode := wp.exitcode, collected := true, ptyChildFd := none }

/-- The descriptor that storing the status closes. -/
def World.releasedPty (w : World) (status : Sexp) : Option ℕ :=
  (w.handles status).bind fun h => if h.collected then none else h.ptyChildFd

/-- A world in which only the handle of `status`, and what its pty costs, is different. -/
theorem collectExitStatus_cases (w : World) (status : Sexp) (wp : WaitResult) :
    (w.releasedPty status = none ∧ w.collectExitStatus status wp =
      w.setHandle status ((w.handles status).map (·.collect wp))) ∨
    ∃ fd, w.releasedPty status = some fd ∧ w.collectExitStatus status wp =
      (w.setHandle status ((w.handles status).map (·.collect wp))).close .pty fd := by
  have hsame : ∀ h, w.handles status = h → w.setHandle status h = w := by
    rintro _ rfl
    have hfun : (fun s => if s = status then w.handles status else w.handles s) = w.handles := by
      funext s
      split
      next heq => rw [heq]
      next => rfl
    rw [World.setHandle, hfun]
  unfold World.collectExitStatus World.releasedPty
  cases hh : w.handles status with
  | none => exact Or.inl ⟨rfl, (hsame none hh).symm⟩
  | some h =>
    by_cases hcollected : h.collected = true
    · refine Or.inl ⟨by simp [hcollected], ?_⟩
      have hcollect : h.collect wp = h := if_pos hcollected
      simp only [hcollected, if_true, Option.map_some, hcollect]
      exact (hsame _ hh).symm
    · have hcollect : h.collect wp =
          { h with exitcode := wp.exitcode, collected := true, ptyChildFd := none } :=
        if_neg hcollected
      cases hpty : h.ptyChildFd with
      | none =>
        refine Or.inl ⟨by simp [hpty], ?_⟩
        simp only [if_neg hcollected, Option.map_some, hcollect, hpty]
        cases wp <;> rfl
      | some fd =>
        refine Or.inr ⟨fd, by simp [hcollected, hpty], ?_⟩
        simp only [if_neg hcollected, Option.map_some, hcollect, hpty]
        cases wp <;> rfl

/-- Storing a status does not change the child list. -/
@[simp] theorem childList_collectExitStatus (w : World) (status : Sexp) (wp : WaitResult) :
    (w.collectExitStatus status wp).childList = w.childList := by
  obtain ⟨_, heq⟩ | ⟨fd, _, heq⟩ := collectExitStatus_cases w status wp <;> rw [heq] <;> rfl

/-- Nor the processes. -/
@[simp] theorem procs_collectExitStatus (w : World) (status : Sexp) (wp : WaitResult) :
    (w.collectExitStatus status wp).procs = w.procs := by
  obtain ⟨_, heq⟩ | ⟨fd, _, heq⟩ := collectExitStatus_cases w status wp <;> rw [heq] <;> rfl

/-- Nor the free list. -/
@[simp] theorem freeList_collectExitStatus (w : World) (status : Sexp) (wp : WaitResult) :
    (w.collectExitStatus status wp).freeList = w.freeList := by
  obtain ⟨_, heq⟩ | ⟨fd, _, heq⟩ := collectExitStatus_cases w status wp <;> rw [heq] <;> rfl

/-- It records at most that the pty was closed. -/
theorem log_collectExitStatus (w : World) (status : Sexp) (wp : WaitResult) :
    (w.collectExitStatus status wp).log = w.log ∨ ∃ fd before,
      (w.collectExitStatus status wp).log = .close .pty fd before :: w.log := by
  obtain ⟨_, heq⟩ | ⟨fd, _, heq⟩ := collectExitStatus_cases w status wp
  · rw [heq]
    exact Or.inl rfl
  · rw [heq]
    exact Or.inr ⟨fd, _, rfl⟩

/-- It changes one handle. -/
theorem handles_collectExitStatus (w : World) (status : Sexp) (wp : WaitResult) (s : Sexp) :
    (w.collectExitStatus status wp).handles s =
      if s = status then (w.handles s).map (·.collect wp) else w.handles s := by
  obtain ⟨_, heq⟩ | ⟨fd, _, heq⟩ := collectExitStatus_cases w status wp
  all_goals
    rw [heq]
    simp only [World.setHandle, World.close]
    split
    next hs => rw [hs]
    next => rfl

/-- It closes at most one descriptor. -/
theorem fds_collectExitStatus (w : World) (status : Sexp) (wp : WaitResult) (n : ℕ) :
    (w.collectExitStatus status wp).fds n =
      if w.releasedPty status = some n then none else w.fds n := by
  obtain ⟨hpty, heq⟩ | ⟨fd, hpty, heq⟩ := collectExitStatus_cases w status wp
  · rw [heq, hpty]
    rfl
  · rw [heq, hpty]
    simp only [World.setHandle, World.close, Option.some.injEq, eq_comm]

/-- The handle that a node leads to. -/
theorem handles_of_nodeHandle {w : World} {node : Node} {h : Handle}
    (hnode : w.nodeHandle node = some h) : w.handles node.status = some h := by
  unfold World.nodeHandle at hnode
  split at hnode
  · exact hnode
  · cases hnode

/-- What the handler does for a child that has exited: it drops the node, or it stores
the status; then it closes the write end of a wait. -/
theorem childExited_cases (w : World) (node : Node) (wp : WaitResult) :
    (w.nodeHandle node = none ∧
      w.childExited node wp = { w with freeList := node :: w.freeList }) ∨
    (∃ h, w.nodeHandle node = some h ∧ h.waitpipe1 = none ∧ w.childExited node wp =
      { w.collectExitStatus node.status wp with
        freeList := node :: (w.collectExitStatus node.status wp).freeList }) ∨
    ∃ h fd, w.nodeHandle node = some h ∧ h.waitpipe1 = some fd ∧ w.childExited node wp =
      (World.close { w.collectExitStatus node.status wp with
        freeList := node :: (w.collectExitStatus node.status wp).freeList } .handler fd).setHandle
          node.status (some { h.collect wp with waitpipe1 := none }) := by
  unfold World.childExited
  cases hnode : w.nodeHandle node with
  | none => exact Or.inl ⟨rfl, rfl⟩
  | some h =>
    right
    have hh := handles_of_nodeHandle hnode
    have hcollected : (w.collectExitStatus node.status wp).handles node.status =
        some (h.collect wp) := by
      rw [handles_collectExitStatus, if_pos rfl, hh]
      rfl
    have hpipe : (h.collect wp).waitpipe1 = h.waitpipe1 := by
      unfold Handle.collect
      split <;> rfl
    dsimp only
    rw [hcollected]
    dsimp only
    rw [hpipe]
    cases hfd : h.waitpipe1 with
    | none => exact Or.inl ⟨h, rfl, hfd, rfl⟩
    | some fd => exact Or.inr ⟨h, fd, rfl, hfd, rfl⟩

/-- The work on one child makes no new object. -/
@[simp] theorem sexps_childExited (w : World) (node : Node) (wp : WaitResult) :
    (w.childExited node wp).sexps = w.sexps := by
  have hcollect : (w.collectExitStatus node.status wp).sexps = w.sexps := by
    obtain ⟨_, heq⟩ | ⟨fd, _, heq⟩ := collectExitStatus_cases w node.status wp <;> rw [heq] <;> rfl
  obtain ⟨_, heq⟩ | ⟨h, _, _, heq⟩ | ⟨h, fd, _, _, heq⟩ := childExited_cases w node wp
  all_goals rw [heq]
  · exact hcollect
  · exact hcollect

/-- The work on one child does not change whose child it is. -/
theorem pid_childExited (w : World) (node : Node) (wp : WaitResult) (s : Sexp) :
    ((w.childExited node wp).handles s).map Handle.pid = (w.handles s).map Handle.pid := by
  have hcollect : ∀ h : Handle, (h.collect wp).pid = h.pid := by
    intro h
    unfold Handle.collect
    split <;> rfl
  have hstored : ((w.collectExitStatus node.status wp).handles s).map Handle.pid =
      (w.handles s).map Handle.pid := by
    rw [handles_collectExitStatus]
    split
    · cases w.handles s with
      | none => rfl
      | some h => exact congrArg some (hcollect h)
    · rfl
  obtain ⟨_, heq⟩ | ⟨h, _, _, heq⟩ | ⟨h, fd, hnode, _, heq⟩ := childExited_cases w node wp
  · rw [heq]
  · rw [heq]
    exact hstored
  · rw [heq]
    by_cases hs : s = node.status
    · subst hs
      rw [handles_of_nodeHandle hnode]
      simp [World.setHandle, hcollect]
    · have hother : ∀ w₁ : World, (w₁.setHandle node.status
          (some { h.collect wp with waitpipe1 := none })).handles s = w₁.handles s :=
        fun w₁ => if_neg hs
      rw [hother]
      exact hstored

/-- The work on one child does not change the child list; the loop does it at its end. -/
@[simp] theorem childList_childExited (w : World) (node : Node) (wp : WaitResult) :
    (w.childExited node wp).childList = w.childList := by
  obtain ⟨_, heq⟩ | ⟨h, _, _, heq⟩ | ⟨h, fd, _, _, heq⟩ := childExited_cases w node wp
  all_goals rw [heq]
  · exact childList_collectExitStatus w node.status wp
  · exact childList_collectExitStatus w node.status wp

/-- It records only what it closes. -/
theorem log_childExited (w : World) (node : Node) (wp : WaitResult) :
    ∃ closes, (w.childExited node wp).log = closes ++ w.log ∧
      ∀ e ∈ closes, ∃ site fd before, e = .close site fd before := by
  have hcollect : ∃ closes, (w.collectExitStatus node.status wp).log = closes ++ w.log ∧
      ∀ e ∈ closes, ∃ site fd before, e = .close site fd before := by
    obtain heq | ⟨fd, before, heq⟩ := log_collectExitStatus w node.status wp
    · exact ⟨[], heq, nofun⟩
    · exact ⟨[_], heq, fun e he => ⟨_, _, _, List.mem_singleton.mp he⟩⟩
  obtain ⟨_, heq⟩ | ⟨h, _, _, heq⟩ | ⟨h, fd, _, _, heq⟩ := childExited_cases w node wp
  · exact ⟨[], by rw [heq]; rfl, nofun⟩
  · rw [heq]
    exact hcollect
  · obtain ⟨closes, hlog, hcloses⟩ := hcollect
    rw [heq]
    refine ⟨.close .handler fd _ :: closes, congrArg (_ :: ·) hlog, fun e he => ?_⟩
    rcases List.mem_cons.mp he with rfl | he
    · exact ⟨_, _, _, rfl⟩
    · exact hcloses e he

/-- A `waitpid()` does not change the child list. -/
theorem childList_waitNohang (w : World) (pid : ℕ) :
    (w.waitNohang pid).2.childList = w.childList := by
  unfold World.waitNohang
  split <;> rfl

/-- A waitpid changes a process only. -/
theorem waitNohang_eq_setProc {w w₁ : World} {pid : ℕ} {wp : WaitResult}
    (h : w.waitNohang pid = (wp, w₁)) : w₁ = w ∨ ∃ p, w₁ = w.setProc pid p := by
  unfold World.waitNohang at h
  cases hproc : w.procs pid <;> rw [hproc] at h <;> cases h
  · exact Or.inl rfl
  · exact Or.inl rfl
  · exact Or.inr ⟨_, rfl⟩
  · exact Or.inl rfl

/-- What a waitpid finds. -/
theorem waitNohang_cases {w w₁ : World} {pid : ℕ} {wp : WaitResult}
    (h : w.waitNohang pid = (wp, w₁)) :
    (wp = .none ∧ w₁ = w ∧ w.procs pid = .running) ∨
    (∃ stat, wp = .exited stat ∧ w.procs pid = .zombie stat ∧
      w₁ = w.setProc pid (.reaped stat)) ∨
    (wp = .echild ∧ w₁ = w ∧ ((∃ stat, w.procs pid = .reaped stat) ∨ w.procs pid = .absent)) := by
  unfold World.waitNohang at h
  cases hproc : w.procs pid <;> rw [hproc] at h <;> cases h
  · exact Or.inr (Or.inr ⟨rfl, rfl, Or.inr rfl⟩)
  · exact Or.inl ⟨rfl, rfl, rfl⟩
  · exact Or.inr (Or.inl ⟨_, rfl, rfl, rfl⟩)
  · exact Or.inr (Or.inr ⟨rfl, rfl, Or.inl ⟨_, rfl⟩⟩)

/-- A child that has not exited leaves the world alone. -/
theorem waitNohang_none {w w₁ : World} {pid : ℕ} (h : w.waitNohang pid = (.none, w₁)) :
    w₁ = w ∧ w.procs pid = .running := by
  unfold World.waitNohang at h
  cases hproc : w.procs pid <;> rw [hproc] at h <;> cases h
  exact ⟨rfl, rfl⟩

/-- The rule for the loop of the handler: what the work on one child keeps is kept, and
the nodes that stay are some of the list. -/
theorem reapChildren_keeps {P : World → Prop}
    (hreap : ∀ w node wp w₁, P w → node ∈ w.childList → w.waitNohang node.pid = (wp, w₁) →
      wp ≠ .none → P (w₁.childExited node wp))
    (nodes : List Node) {w : World} (hw : P w) (hnodes : nodes ⊆ w.childList) :
    P (w.reapChildren nodes).2 ∧ (w.reapChildren nodes).1.Sublist nodes ∧
      (w.reapChildren nodes).2.childList = w.childList := by
  induction nodes generalizing w with
  | nil => exact ⟨hw, .refl _, rfl⟩
  | cons node nodes ih =>
    have hmem : node ∈ w.childList := hnodes (List.mem_cons_self)
    have hrest : nodes ⊆ w.childList := fun n hn => hnodes (List.mem_cons_of_mem _ hn)
    have hlist := childList_waitNohang w node.pid
    rw [World.reapChildren]
    cases hwait : w.waitNohang node.pid with
    | mk wp w₁ =>
      rw [hwait] at hlist
      by_cases hnone : wp = .none
      · subst hnone
        obtain ⟨rfl, _⟩ := waitNohang_none hwait
        obtain ⟨hP, hsub, hsame⟩ := ih hw hrest
        exact ⟨hP, hsub.cons_cons node, hsame⟩
      · have hnext := hreap w node wp w₁ hw hmem hwait hnone
        have hlist' : (w₁.childExited node wp).childList = w.childList := by
          rw [childList_childExited]
          exact hlist
        obtain ⟨hP, hsub, hsame⟩ := ih hnext (by rwa [hlist'])
        cases wp with
        | none => exact absurd rfl hnone
        | exited stat => exact ⟨hP, hsub.cons node, hsame.trans hlist'⟩
        | echild => exact ⟨hP, hsub.cons node, hsame.trans hlist'⟩
        | error => exact ⟨hP, hsub.cons node, hsame.trans hlist'⟩

/-- **The rule for moves.** What an exit, the start of the handler, its work on one child
and its removal of nodes keep is kept by every move. -/
theorem move_keeps {P : World → Prop}
    (hexit : ∀ w pid stat, P w → w.procs pid = .running → P (w.setProc pid (.zombie stat)))
    (hstart : ∀ w, P w → w.blocked = false → w.installed = true →
      P (w.record (.handler w.critical (w.childList.map Node.pid))))
    (hreap : ∀ w node wp w₁, P w → node ∈ w.childList → w.waitNohang node.pid = (wp, w₁) →
      wp ≠ .none → P (w₁.childExited node wp))
    (hkept : ∀ w kept, P w → kept.Sublist w.childList → P { w with childList := kept })
    (w : World) (m : Move) (w' : World) (hw : P w) (hmove : w.move m = some w') : P w' := by
  cases m with
  | exit pid stat =>
    rw [World.move] at hmove
    by_cases hrun : w.procs pid = .running
    · rw [if_pos hrun] at hmove
      obtain rfl := Option.some.inj hmove
      exact hexit w pid stat hw hrun
    · rw [if_neg hrun] at hmove
      cases hmove
  | sigchld =>
    rw [World.move] at hmove
    by_cases hopen : (!w.blocked && w.installed) = true
    · rw [if_pos hopen] at hmove
      obtain rfl := Option.some.inj hmove
      rw [Bool.and_eq_true, Bool.not_eq_true'] at hopen
      obtain ⟨hP, hsub, hsame⟩ := reapChildren_keeps hreap w.childList
        (hstart w hw hopen.1 hopen.2) (fun _ h => h)
      refine hkept _ _ hP ?_
      have hlist : ((w.record _).reapChildren w.childList).2.childList = w.childList := hsame
      exact hlist.symm ▸ hsub
    · rw [if_neg hopen] at hmove
      cases hmove

/-- Nothing outside of the main program changes the mask. -/
theorem blocked_move {w w' : World} {m : Move} (hmove : w.move m = some w') :
    w'.blocked = w.blocked := by
  refine move_keeps (P := fun w₁ => w₁.blocked = w.blocked) ?_ ?_ ?_ ?_ w m w' rfl hmove
  · exact fun w₁ pid stat h _ => h
  · exact fun w₁ h _ _ => h
  · intro w₁ node wp w₂ h _ hwait _
    have hcollect : ∀ w : World, (w.collectExitStatus node.status wp).blocked = w.blocked := by
      intro w
      obtain ⟨_, heq⟩ | ⟨fd, _, heq⟩ := collectExitStatus_cases w node.status wp <;>
        rw [heq] <;> rfl
    have hw₂ : w₂.blocked = w₁.blocked := by
      obtain rfl | ⟨p, rfl⟩ := waitNohang_eq_setProc hwait <;> rfl
    obtain ⟨_, heq⟩ | ⟨handle, _, _, heq⟩ | ⟨handle, fd, _, _, heq⟩ := childExited_cases w₂ node wp
    · rw [heq]
      exact hw₂.trans h
    · rw [heq]
      exact (hcollect w₂).trans (hw₂.trans h)
    · rw [heq]
      exact (hcollect w₂).trans (hw₂.trans h)
  · exact fun w₁ kept h _ => h

/-- While the signal is blocked or the handler is not installed, children can exit and nothing
else happens. -/
theorem move_unhandled {w w' : World} {m : Move} (h : w.blocked = true ∨ w.installed = false)
    (hmove : w.move m = some w') :
    ∃ pid stat, w.procs pid = .running ∧ w' = w.setProc pid (.zombie stat) := by
  cases m with
  | exit pid stat =>
    rw [World.move] at hmove
    by_cases hrun : w.procs pid = .running
    · rw [if_pos hrun] at hmove
      exact ⟨pid, stat, hrun, (Option.some.inj hmove).symm⟩
    · rw [if_neg hrun] at hmove
      cases hmove
  | sigchld =>
    have hclosed : (!w.blocked && w.installed) = false := by
      rcases h with hblocked | hinstalled
      · rw [hblocked]
        rfl
      · rw [hinstalled, Bool.and_false]
    rw [World.move, hclosed] at hmove
    cases hmove

/-- While the signal is blocked, children can exit and nothing else happens. -/
theorem move_blocked {w w' : World} {m : Move} (hblocked : w.blocked = true)
    (hmove : w.move m = some w') :
    ∃ pid stat, w.procs pid = .running ∧ w' = w.setProc pid (.zombie stat) :=
  move_unhandled (Or.inl hblocked) hmove

end Processx
