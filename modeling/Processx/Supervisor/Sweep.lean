import Processx.Supervisor.Children

/-!
# Sweeps of the supervisor

Every 0.2 seconds the supervisor takes the children that have died out of its list. The loop
moves the last child to the place of a dead one, and goes on behind that place.
-/

namespace Processx

/-- The loop over `children` in `main()`, where `status` tells what `kill(pid, 0)` does. -/
def removeStopped (status : ℤ → KillZero) (children : SwapArray ℤ) : SwapArray ℤ :=
  children.removeFrom (fun pid => pidIsRunning (status pid)) children.count 0

/-- How many children do not run. -/
def stoppedCount (status : ℤ → KillZero) (children : SwapArray ℤ) : ℕ :=
  children.entries.countP fun pid => !pidIsRunning (status pid)

/-- The children after a sweep, where the answers by place are those for the processes there. The
loop looks at each place before it changes it. -/
theorem sweepLoop_children (status : ℤ → KillZero) (answer : ℕ → KillZero) (rounds i : ℕ)
    (s : Supervisor) (h : ∀ j, i ≤ j → answer j = status (s.children.cells j)) :
    (sweepLoop answer rounds i s).1.children =
      s.children.removeFrom (fun pid => pidIsRunning (status pid)) rounds i := by
  induction rounds generalizing i s with
  | zero => rfl
  | succ rounds ih =>
    rw [sweepLoop, SwapArray.removeFrom]
    by_cases hi : i < s.children.count
    · rw [if_pos hi, if_pos hi, ← h i (Nat.le_refl i)]
      dsimp only
      split_ifs
      · exact ih (i + 1) _ fun j hj => h j (by omega)
      · refine ih (i + 1) ⟨s.children.removeAt i, _, s.exiting⟩ fun j hj => ?_
        rw [h j (by omega)]
        refine congrArg status (if_neg ?_).symm
        omega
    · rw [if_neg hi, if_neg hi]

/-- The loop is the sweep of the runs of the supervisor. -/
theorem Supervisor.sweep_children (status : ℤ → KillZero) (s : Supervisor) :
    (s.sweep fun i => status (s.children.cells i)).1.children =
      removeStopped status s.children :=
  sweepLoop_children status _ _ _ s fun _ _ => rfl

/-- The children after a sweep, as a list. -/
theorem entries_removeStopped (status : ℤ → KillZero) (children : SwapArray ℤ) :
    (removeStopped status children).entries =
      SwapArray.passed (fun pid => pidIsRunning (status pid)) children.entries :=
  SwapArray.entries_removeFrom _ _ _ _ (Nat.le_refl _)

/-- **A sweep is complete** exactly if, where `k` children have stopped, the last `k - 1` children
are running: then all the running children are still tracked, and no stopped one is. -/
theorem removeStopped_complete_iff (status : ℤ → KillZero) (children : SwapArray ℤ) :
    ((∀ pid ∈ children.entries, pidIsRunning (status pid) = true →
          pid ∈ (removeStopped status children).entries) ∧
        ∀ pid ∈ (removeStopped status children).entries, pidIsRunning (status pid) = true) ↔
      ∀ pid ∈ children.entries.drop (children.count + 1 - stoppedCount status children),
        pidIsRunning (status pid) = true := by
  rw [entries_removeStopped, ← children.entries_length]
  refine Iff.trans (and_iff_right fun pid hpid hrunning => ?_)
    (SwapArray.forall_mem_passed_iff _ children.entries)
  exact SwapArray.mem_passed_of_keep hpid hrunning

/-- Two children that have stopped, and one of them stays. -/
theorem removeStopped_incomplete :
    ¬∀ (status : ℤ → KillZero) (children : SwapArray ℤ),
      (∀ pid ∈ children.entries, pidIsRunning (status pid) = true →
          pid ∈ (removeStopped status children).entries) ∧
        ∀ pid ∈ (removeStopped status children).entries, pidIsRunning (status pid) = true := by
  intro hall
  have h := (hall (fun _ => .esrch) ⟨fun i => 100 + i, 2⟩).2 101
  revert h
  decide

end Processx
