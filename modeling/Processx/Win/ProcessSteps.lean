import Processx.Win.Process
import Mathlib.Tactic.Common

/-!
# What the calls of Windows do

One statement for each action of the model, which says all that it can do, and the relation
between a state and the later ones.
-/

namespace Processx.Win.Process

open Interruptible

/-- A process was told to end with a code, or has ended with it. -/
def EndsWith (w : World) (pid : ℕ) (code : Dword) : Prop :=
  w.procs pid = some (.terminating code) ∨ ∃ t, w.procs pid = some (.exited code t)

/-- A later state. What a process has come to stays, and an object whose pointer is cleared has no
handle again. -/
structure Later (w w' : World) : Prop where
  log : ∃ new, w'.log = new ++ w.log
  known : ∀ pid, w.procs pid ≠ none → w'.procs pid ≠ none
  ends : ∀ pid c, EndsWith w pid c → EndsWith w' pid c
  exited : ∀ pid c t, w.procs pid = some (.exited c t) → w'.procs pid = some (.exited c t)
  sexps : w.sexps ≤ w'.sexps
  gone : ∀ s, s < w.sexps → w.handles s = none → w'.handles s = none

/-- A state is later than itself. -/
theorem Later.refl (w : World) : Later w w where
  log := ⟨[], rfl⟩
  known _ h := h
  ends _ _ h := h
  exited _ _ _ h := h
  sexps := le_rfl
  gone _ _ h := h

/-- What is later than a later state is later. -/
theorem Later.trans {w₁ w₂ w₃ : World} (h₁ : Later w₁ w₂) (h₂ : Later w₂ w₃) : Later w₁ w₃ where
  log := by
    obtain ⟨new₁, hlog₁⟩ := h₁.log
    obtain ⟨new₂, hlog₂⟩ := h₂.log
    exact ⟨new₂ ++ new₁, by rw [hlog₂, hlog₁, List.append_assoc]⟩
  known pid h := h₂.known pid (h₁.known pid h)
  ends pid c h := h₂.ends pid c (h₁.ends pid c h)
  exited pid c t h := h₂.exited pid c t (h₁.exited pid c t h)
  sexps := h₁.sexps.trans h₂.sexps
  gone s hs h := h₂.gone s (hs.trans_le h₁.sexps) (h₁.gone s hs h)

/-- What has happened has happened. -/
theorem Later.mem {w w' : World} (h : Later w w') {e : Event} (he : e ∈ w.log) : e ∈ w'.log := by
  obtain ⟨new, hlog⟩ := h.log
  rw [hlog]
  exact List.mem_append_right _ he

/-- A step without new processes or objects. -/
theorem Later.of_handles {w w' : World} (hprocs : w'.procs = w.procs) (hsexps : w'.sexps = w.sexps)
    (hlog : ∃ new, w'.log = new ++ w.log)
    (hgone : ∀ s, w.handles s = none → w'.handles s = none) : Later w w' where
  log := hlog
  known pid h := by rwa [hprocs]
  ends pid c h := by
    unfold EndsWith at h ⊢
    rwa [hprocs]
  exited pid c t h := by rwa [hprocs]
  sexps := hsexps.ge
  gone s _ h := hgone s h

/-- Changing the handle of an object that has one. -/
theorem setHandle_none {w : World} {status : Sexp} {h : Handle}
    (hhandle : w.handles status = some h) (h' : Option Handle) {s : Sexp} (hs : w.handles s = none) :
    (w.setHandle status h').handles s = none := by
  by_cases heq : s = status
  · rw [heq, hhandle] at hs
    cases hs
  · simpa [World.setHandle, heq] using hs

/-- A process comes closer to its end. -/
theorem Later.of_setProc {w w' : World} {pid : ℕ} {p : Proc}
    (hprocs : w'.procs = (w.setProc pid p).procs) (hhandles : w'.handles = w.handles) (hsexps : w'.sexps = w.sexps)
    (hlog : ∃ new, w'.log = new ++ w.log)
    (hends : ∀ c, EndsWith w pid c → EndsWith (w.setProc pid p) pid c)
    (hexited : ∀ c t, w.procs pid ≠ some (.exited c t)) : Later w w' where
  log := hlog
  known n h := by
    rw [hprocs]
    by_cases heq : n = pid
    · simp [World.setProc, heq]
    · simpa [World.setProc, heq] using h
  ends n c h := by
    unfold EndsWith
    rw [hprocs]
    by_cases heq : n = pid
    · rw [heq] at h ⊢
      exact hends c h
    · unfold EndsWith at h
      simpa [World.setProc, heq] using h
  exited n c t h := by
    rw [hprocs]
    by_cases heq : n = pid
    · rw [heq] at h
      exact absurd h (hexited c t)
    · simpa [World.setProc, heq] using h
  sexps := hsexps.ge
  gone s _ h := by rwa [hhandles]

/-- A process that ends keeps everything else. -/
theorem move_spec {w w' : World} {m : Move} (h : w.move m = some w') :
    Later w w' ∧ w'.table = w.table ∧ w'.handles = w.handles ∧ w'.sexps = w.sexps ∧
      w'.log = w.log := by
  obtain ⟨pid, code, time⟩ := m
  rw [World.move] at h
  split at h
  · next hrunning =>
    obtain rfl := Option.some.inj h
    refine ⟨.of_setProc rfl rfl rfl ⟨[], rfl⟩ (fun c hc => ?_) ?_, rfl, rfl, rfl, rfl⟩
    · rcases hc with hc | ⟨t, hc⟩ <;> rw [hrunning] at hc <;> cases hc
    · intro c t hc
      rw [hrunning] at hc
      cases hc
  · next c₀ hterm =>
    split_ifs at h with hcode
    obtain rfl := Option.some.inj h
    refine ⟨.of_setProc rfl rfl rfl ⟨[], rfl⟩ (fun c hc => ?_) ?_, rfl, rfl, rfl, rfl⟩
    · have heq : c = code := by
        rcases hc with hc | ⟨t, hc⟩ <;> rw [hterm] at hc
        · rw [← hcode]
          simpa using hc.symm
        · cases hc
      exact Or.inr ⟨time, by simp [World.setProc, heq]⟩
    · intro c t hc
      rw [hterm] at hc
      cases hc
  · cases h

/-- A system call that succeeds or fails changes nothing here. -/
theorem sysCall_spec {w w' : World} {c : Choice} {r : Bool} (h : sysCall w c = some (r, w')) :
    w' = w := by
  unfold sysCall at h
  split at h <;> simp_all

/-- An exit code is that of a process that has ended, or says that the process is there. -/
theorem getExitCodeProcess_spec {number : Option ℕ} {w w' : World} {c : Choice} {r : Option Dword}
    (h : getExitCodeProcess number w c = some (r, w')) :
    w' = w ∧ (r = none ∨ (∃ code t, r = some code ∧ w.proc number = some (.exited code t)) ∨
      r = some stillActive ∧ w.proc number ≠ none ∧
        ∀ code t, w.proc number ≠ some (.exited code t)) := by
  unfold getExitCodeProcess at h
  split at h <;> simp_all

/-- A wait is over if the process has ended. -/
theorem waitForSingleObject_spec {number : Option ℕ} {ms : Option ℤ} {w w' : World} {c : Choice}
    {r : WaitAnswer} (h : waitForSingleObject number ms w c = some (r, w')) :
    w' = w ∧ (r = .object → ∃ code t, w.proc number = some (.exited code t)) ∧
      (r ≠ .failed → w.proc number ≠ none) := by
  unfold waitForSingleObject at h
  split at h
  · simp_all
  · split_ifs at h
    obtain ⟨rfl, rfl⟩ := Prod.mk.inj (Option.some.inj h)
    simp_all
  · obtain ⟨rfl, rfl⟩ := Prod.mk.inj (Option.some.inj h)
    simp_all
  · obtain ⟨rfl, rfl⟩ := Prod.mk.inj (Option.some.inj h)
    simp_all
  · cases h

/-- `TerminateProcess()` succeeds for a process that runs, and tells it to end. -/
theorem terminateProcess_spec {status : Sexp} {number : Option ℕ} {code : Dword} {w w' : World}
    {c : Choice} {r : Bool} (h : terminateProcess status number code w c = some (r, w')) :
    (∃ pid, r = true ∧ w.process number = some pid ∧ w.procs pid = some .running ∧
      w' = (w.setProc pid (.terminating code)).record (.terminate status (some .running) true)) ∨
    (r = false ∧ w' = w.record (.terminate status (w.proc number) false)) := by
  unfold terminateProcess at h
  split at h
  · next pid hpid hrunning =>
    left
    rw [World.proc, hpid] at hrunning
    simp_all
  · simp_all
  · simp_all
  · cases h

/-- The exit code is stored, and a time, which is that of the process if it has ended. -/
theorem collectExitStatus_spec {status : Sexp} {code : Dword} {w w' : World} {c : Choice} {r : Unit}
    (h : collectExitStatus status code w c = some (r, w')) :
    ∃ (h₀ : Handle) (endTime : ℤ), w.handles status = some h₀ ∧
      w' = w.setHandle status (some { h₀ with
        exitcode := code.toInt, collected := true, endTime := endTime }) ∧
      ∀ code' t, w.proc h₀.hProcess = some (.exited code' t) →
        endTime = 0 ∨ endTime = t - epochStart := by
  unfold collectExitStatus at h
  cases hhandle : w.handles status with
  | none => simp [hhandle] at h
  | some h₀ =>
    simp only [hhandle] at h
    split at h
    · next code' time hproc =>
      obtain ⟨-, rfl⟩ := Prod.mk.inj (Option.some.inj h)
      refine ⟨h₀, _, rfl, rfl, fun code'' t ht => Or.inr ?_⟩
      rw [hproc] at ht
      simp_all
    · next hproc =>
      obtain ⟨-, rfl⟩ := Prod.mk.inj (Option.some.inj h)
      refine ⟨h₀, _, rfl, rfl, fun code'' t ht => ?_⟩
      rw [hproc] at ht
      cases ht
    · next hproc =>
      obtain ⟨-, rfl⟩ := Prod.mk.inj (Option.some.inj h)
      refine ⟨h₀, _, rfl, rfl, fun code'' t ht => ?_⟩
      rw [hproc] at ht
      cases ht
    · obtain ⟨-, rfl⟩ := Prod.mk.inj (Option.some.inj h)
      exact ⟨h₀, 0, rfl, rfl, fun _ _ _ => Or.inl rfl⟩
    · obtain ⟨-, rfl⟩ := Prod.mk.inj (Option.some.inj h)
      exact ⟨h₀, 0, rfl, rfl, fun _ _ _ => Or.inl rfl⟩
    · cases h

/-- The entry of the process is closed, if there is one. -/
theorem closeProcess_spec {status : Sexp} {w w' : World} {c : Choice} {r : Unit}
    (h : closeProcess status w c = some (r, w')) :
    ∃ h₀ : Handle, w.handles status = some h₀ ∧
      w'.handles = (w.setHandle status (some { h₀ with hProcess := none })).handles ∧
      w'.procs = w.procs ∧ w'.sexps = w.sexps ∧
      w'.table = (fun n => if h₀.hProcess = some n then none else w.table n) ∧
      w'.log = .closed status h₀.hProcess (w.process h₀.hProcess) :: w.log := by
  unfold closeProcess at h
  cases hhandle : w.handles status with
  | none => simp [hhandle] at h
  | some h₀ =>
    simp only [hhandle] at h
    obtain ⟨-, rfl⟩ := Prod.mk.inj (Option.some.inj h)
    refine ⟨h₀, rfl, ?_⟩
    cases hnumber : h₀.hProcess with
    | none => exact ⟨rfl, rfl, rfl, by simp [World.setHandle, World.record], rfl⟩
    | some number =>
      refine ⟨rfl, rfl, rfl, funext fun n => ?_, rfl⟩
      simp [World.setHandle, World.record, World.setEntry, eq_comm]

/-- A new process, with a number and an entry that were free. -/
theorem createProcess_spec {status : Sexp} {w w' : World} {c : Choice} {r : Bool}
    (h : createProcess status w c = some (r, w')) :
    w' = w ∨ ∃ (h₀ : Handle) (number pid : ℕ),
      w.handles status = some h₀ ∧ w.table number = none ∧ w.procs pid = none ∧
      w'.handles = (w.setHandle status
        (some { h₀ with hProcess := some number, dwProcessId := pid })).handles ∧
      w'.procs = (w.setProc pid .running).procs ∧
      w'.table = (w.setEntry number (some pid)).table ∧
      w'.sexps = w.sexps ∧ w'.log = .started status pid :: w.log := by
  unfold createProcess at h
  split at h
  · next number pid h₀ hhandle =>
    split_ifs at h with hfree
    obtain ⟨rfl, rfl⟩ := Prod.mk.inj (Option.some.inj h)
    exact Or.inr ⟨h₀, number, pid, hhandle, hfree.1, hfree.2, rfl, rfl, rfl, rfl, rfl⟩
  · exact Or.inl (Prod.mk.inj (Option.some.inj h)).2.symm
  · cases h

/-- A new object. -/
theorem makeHandle_spec {cleanup : Bool} {w w' : World} {c : Choice} {r : Option Sexp}
    (h : makeHandle cleanup w c = some (r, w')) :
    (r = none ∧ w' = w) ∨ (r = some w.sexps ∧
      w'.handles = (w.setHandle w.sexps (some { cleanup := cleanup })).handles ∧
      w'.procs = w.procs ∧ w'.table = w.table ∧ w'.sexps = w.sexps + 1 ∧ w'.log = w.log) := by
  unfold makeHandle at h
  split at h
  · obtain ⟨rfl, rfl⟩ := Prod.mk.inj (Option.some.inj h)
    exact Or.inr ⟨rfl, rfl, rfl, rfl, rfl, rfl⟩
  · obtain ⟨rfl, rfl⟩ := Prod.mk.inj (Option.some.inj h)
    exact Or.inl ⟨rfl, rfl⟩
  · cases h

end Processx.Win.Process
