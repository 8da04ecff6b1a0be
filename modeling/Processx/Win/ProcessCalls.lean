import Processx.Win.ProcessSteps

/-!
# What holds of processes on Windows

The invariants of the handles, of the table of open handles and of the log, at any moment and
between two calls, and what each call of R keeps of them and answers.
-/

namespace Processx.Win.Process

open Interruptible

/-- The calls of `TerminateProcess()` for an object, the newest first: what its process was before,
and if the call has succeeded. -/
def attempts (status : Sexp) (log : List Event) : List (Option Proc × Bool) :=
  log.filterMap fun
    | .terminate s before ok => if s = status then some (before, ok) else none
    | _ => none

/-- A start is no attempt to end a process. -/
@[simp] theorem attempts_started (s status : Sexp) (pid : ℕ) (log : List Event) :
    attempts s (.started status pid :: log) = attempts s log := rfl

/-- Nor is closing a handle. -/
@[simp] theorem attempts_closed (s status : Sexp) (number before : Option ℕ) (log : List Event) :
    attempts s (.closed status number before :: log) = attempts s log := rfl

/-- A call for the object is the newest attempt. -/
@[simp] theorem attempts_terminate_self (s : Sexp) (before : Option Proc) (ok : Bool)
    (log : List Event) :
    attempts s (.terminate s before ok :: log) = (before, ok) :: attempts s log := by
  simp [attempts]

/-- A call for another object is no attempt for this one. -/
theorem attempts_terminate_of_ne {s status : Sexp} (h : s ≠ status) (before : Option Proc)
    (ok : Bool) (log : List Event) :
    attempts s (.terminate status before ok :: log) = attempts s log := by
  simp [attempts, Ne.symm h]

/-- The object that an event is about. -/
def Event.status : Event → Sexp
  | .started s _ => s
  | .terminate s _ _ => s
  | .closed s _ _ => s

/-- Nor is any event about another object. -/
theorem attempts_cons_of_ne {s : Sexp} {e : Event} (h : e.status ≠ s) (log : List Event) :
    attempts s (e :: log) = attempts s log := by
  cases e with
  | terminate status before ok => exact attempts_terminate_of_ne (Ne.symm h) before ok log
  | _ => rfl

/-- What has become of an object between two calls: it has no process yet, its process was not
ended by the package, was ended by it, or could not be ended because it was over. -/
inductive Handle.Phase (h : Handle) (s : Sexp) (log : List Event) : Prop
  | unborn (hnumber : h.hProcess = none) (hcollected : h.collected = false)
      (hstarted : ∀ pid, .started s pid ∉ log) (hattempts : attempts s log = [])
  | live (hnumber : h.hProcess ≠ none) (hattempts : attempts s log = [])
  | killed (hnumber : h.hProcess = none) (hcollected : h.collected = true) (hcode : h.exitcode = 2)
      (hattempts : attempts s log = [(some .running, true)])
  | lost (hnumber : h.hProcess = none) (hcollected : h.collected = false) (before : Option Proc)
      (hattempts : attempts s log = [(before, false)])

/-- What is true of a handle at any moment. -/
structure Handle.Sound (h : Handle) (w : World) (s : Sexp) : Prop where
  entry : ∀ n, h.hProcess = some n → w.table n = some h.dwProcessId
  born : h.hProcess ≠ none ∨ h.collected = true → .started s h.dwProcessId ∈ w.log
  code : h.collected = true → ∃ c, EndsWith w h.dwProcessId c ∧ h.exitcode = c.toInt
  time : h.endTime ≠ 0 → h.collected = true ∧ ((∃ c t, w.procs h.dwProcessId = some (.exited c t) ∧
    h.endTime = t - epochStart) ∨ (some .running, true) ∈ attempts s w.log)

/-- What is true at any moment: handles are sound, each entry of the table belongs to one of them,
and only such entries are closed. -/
structure Sound (w : World) : Prop where
  handles : ∀ s h, w.handles s = some h → h.Sound w s
  fresh : ∀ s, w.sexps ≤ s → w.handles s = none
  untried : ∀ s, w.sexps ≤ s → attempts s w.log = []
  owner : ∀ n pid, w.table n = some pid → ∃ s h, w.handles s = some h ∧ h.hProcess = some n
  known : ∀ s pid, .started s pid ∈ w.log → s < w.sexps ∧ w.procs pid ≠ none
  one : ∀ s s' pid pid', .started s pid ∈ w.log → .started s' pid' ∈ w.log → (s = s' ↔ pid = pid')
  closes : ∀ s n before, .closed s n before ∈ w.log →
    n = none ∧ before = none ∨ ∃ pid, before = some pid ∧ .started s pid ∈ w.log

/-- A moment at which only one object may be in between. -/
structure Busy (s : Sexp) (w : World) : Prop extends Sound w where
  others : ∀ s' h, s' ≠ s → w.handles s' = some h → h.Phase s' w.log

/-- A moment between two calls. -/
structure Settled (w : World) : Prop extends Sound w where
  phase : ∀ s h, w.handles s = some h → h.Phase s w.log

/-- Between two calls no object is in between. -/
theorem Settled.busy {w : World} (h : Settled w) (s : Sexp) : Busy s w :=
  ⟨h.toSound, fun s' h' _ hh' => h.phase s' h' hh'⟩

/-- If the object in between has come to a phase, it is a moment between two calls. -/
theorem Busy.settled {s : Sexp} {w : World} (hw : Busy s w)
    (hphase : ∀ h, w.handles s = some h → h.Phase s w.log) : Settled w where
  toSound := hw.toSound
  phase s' h' hh' := by
    by_cases heq : s' = s
    · rw [heq] at hh' ⊢
      exact hphase h' hh'
    · exact hw.others s' h' heq hh'

/-- The process of an open handle. -/
theorem Handle.Sound.proc_eq {h : Handle} {w : World} {s : Sexp} (hh : h.Sound w s)
    (hnumber : h.hProcess ≠ none) : w.proc h.hProcess = w.procs h.dwProcessId := by
  obtain ⟨n, hn⟩ := Option.ne_none_iff_exists'.mp hnumber
  simp [World.proc, World.process, hn, hh.entry n hn]

/-- A sound handle stays sound as long as its entry of the table does not change. -/
theorem Handle.Sound.later {h : Handle} {w w' : World} {s : Sexp} (hh : h.Sound w s)
    (hlater : Later w w') (hentry : ∀ n, h.hProcess = some n → w'.table n = w.table n)  :
    h.Sound w' s where
  entry n hn := by rw [hentry n hn, hh.entry n hn]
  born hb := hlater.mem (hh.born hb)
  code hc := by
    obtain ⟨c, hends, hcode⟩ := hh.code hc
    exact ⟨c, hlater.ends _ c hends, hcode⟩
  time ht := by
    refine ⟨(hh.time ht).1, ?_⟩
    rcases (hh.time ht).2 with ⟨c, t, hexited, heq⟩ | hkilled
    · exact Or.inl ⟨c, t, hlater.exited _ c t hexited, heq⟩
    · obtain ⟨new, hlog⟩ := hlater.log
      right
      rw [hlog, attempts, List.filterMap_append]
      exact List.mem_append_right _ hkilled

/-- A state that differs from another one in the ends of processes only. -/
structure Moved (w w' : World) : Prop where
  later : Later w w'
  table : w'.table = w.table
  handles : w'.handles = w.handles
  sexps : w'.sexps = w.sexps
  log : w'.log = w.log

/-- Assertions that stay true while processes end. -/
def Stable (P : World → Prop) : Prop := ∀ w w', P w → Moved w w' → P w'

/-- Two assertions that stay true. -/
theorem Stable.and {P R : World → Prop} (hP : Stable P) (hR : Stable R) :
    Stable fun w => P w ∧ R w := fun w w' h hm => ⟨hP w w' h.1 hm, hR w w' h.2 hm⟩

/-- What does not depend on the state stays true. -/
theorem stable_const (φ : Prop) : Stable fun _ => φ := fun _ _ h _ => h

/-- The handle of an object does not change when processes end. -/
theorem stable_handle (s : Sexp) (h : Option Handle) : Stable fun w => w.handles s = h := by
  intro w w' hw hm
  rw [hm.handles]
  exact hw

/-- Nor does what was tried to end its process. -/
theorem stable_attempts (s : Sexp) (past : List (Option Proc × Bool)) :
    Stable fun w => attempts s w.log = past := by
  intro w w' hw hm
  rw [hm.log]
  exact hw

/-- The code with which a process ends stays. -/
theorem stable_ends (pid : ℕ) (c : Dword) : Stable fun w => EndsWith w pid c :=
  fun _ _ hw hm => hm.later.ends pid c hw

/-- A process that has ended has ended. -/
theorem stable_exited (pid : ℕ) (c : Dword) :
    Stable fun w => ∃ t, w.procs pid = some (.exited c t) := by
  rintro w w' ⟨t, ht⟩ hm
  exact ⟨t, hm.later.exited pid c t ht⟩

/-- Handles stay sound when processes end. -/
theorem stable_sound : Stable Sound := by
  intro w w' hw hm
  refine ⟨fun s h hh => ?_, fun s hs => ?_, fun s hs => ?_, fun n pid hn => ?_, fun s pid hs => ?_,
    fun s s' pid pid' hs hs' => ?_, fun s n before hc => ?_⟩
  · rw [hm.handles] at hh
    exact (hw.handles s h hh).later hm.later fun n _ => by rw [hm.table]
  · rw [hm.handles]
    exact hw.fresh s (hm.sexps ▸ hs)
  · rw [hm.log]
    exact hw.untried s (hm.sexps ▸ hs)
  · rw [hm.table] at hn
    rw [hm.handles]
    exact hw.owner n pid hn
  · rw [hm.log] at hs
    obtain ⟨hlt, hknown⟩ := hw.known s pid hs
    exact ⟨hm.sexps ▸ hlt, hm.later.known pid hknown⟩
  · rw [hm.log] at hs hs'
    exact hw.one s s' pid pid' hs hs'
  · rw [hm.log] at hc ⊢
    exact hw.closes s n before hc

/-- An object in between stays in between. -/
theorem stable_busy (s : Sexp) : Stable (Busy s) := by
  intro w w' hw hm
  refine ⟨stable_sound w w' hw.toSound hm, fun s' h hs hh => ?_⟩
  rw [hm.handles] at hh
  rw [hm.log]
  exact hw.others s' h hs hh

/-- A moment between two calls stays one. -/
theorem stable_settled : Stable Settled := by
  intro w w' hw hm
  refine ⟨stable_sound w w' hw.toSound hm, fun s h hh => ?_⟩
  rw [hm.handles] at hh
  rw [hm.log]
  exact hw.phase s h hh

/-- Such assertions, if they say that the state is sound. -/
theorem Stable.kept {P : World → Prop} (hP : Stable P) (hsound : ∀ w, P w → Sound w) :
    Kept World.move Sound P where
  move w m w' hw hmove := by
    obtain ⟨hlater, htable, hhandles, hsexps, hlog⟩ := move_spec hmove
    exact hP w w' hw ⟨hlater, htable, hhandles, hsexps, hlog⟩
  safe := hsound

/-- A handle is changed, and nothing else but the log. -/
theorem Sound.of_setHandle {w w' : World} {status : Sexp} {h₀ h₁ : Handle} (hw : Sound w)
    (hhandle : w.handles status = some h₀) (hlater : Later w w') (htable : w'.table = w.table)
    (hhandles : w'.handles = (w.setHandle status (some h₁)).handles) (hsexps : w'.sexps = w.sexps)
    (hlog : w'.log = w.log) (hnumber : h₁.hProcess = h₀.hProcess) (hsound : h₁.Sound w' status) :
    Sound w' where
  handles s h hh := by
    rw [hhandles] at hh
    by_cases heq : s = status
    · rw [heq] at hh ⊢
      obtain rfl : h₁ = h := by simpa [World.setHandle] using hh
      exact hsound
    · exact (hw.handles s h (by simpa [World.setHandle, heq] using hh)).later hlater
        fun n _ => by rw [htable]
  fresh s hs := by
    rw [hsexps] at hs
    rw [hhandles]
    exact setHandle_none hhandle _ (hw.fresh s hs)
  untried s hs := by
    rw [hlog]
    exact hw.untried s (hsexps ▸ hs)
  owner n pid hn := by
    rw [htable] at hn
    obtain ⟨s, h, hh, hhn⟩ := hw.owner n pid hn
    rw [hhandles]
    by_cases heq : s = status
    · refine ⟨status, h₁, by simp [World.setHandle], ?_⟩
      rw [heq, hhandle] at hh
      rw [hnumber, Option.some.inj hh, hhn]
    · exact ⟨s, h, by simpa [World.setHandle, heq] using hh, hhn⟩
  known s pid hs := by
    rw [hlog] at hs
    obtain ⟨hlt, hknown⟩ := hw.known s pid hs
    exact ⟨hsexps ▸ hlt, hlater.known pid hknown⟩
  one s s' pid pid' hs hs' := by
    rw [hlog] at hs hs'
    exact hw.one s s' pid pid' hs hs'
  closes s n before hc := by
    rw [hlog] at hc ⊢
    exact hw.closes s n before hc

/-- The exit code is stored. -/
theorem sound_collectExitStatus {w w' : World} {status : Sexp} {h : Handle} {code : Dword}
    {c : Choice} {r : Unit} (hw : Sound w) (hhandle : w.handles status = some h)
    (hstarted : .started status h.dwProcessId ∈ w.log) (hends : EndsWith w h.dwProcessId code)
    (htime : (h.hProcess ≠ none ∧ ∃ t, w.procs h.dwProcessId = some (.exited code t)) ∨
      (some .running, true) ∈ attempts status w.log)
    (hact : collectExitStatus status code w c = some (r, w')) :
    Sound w' ∧ ∃ endTime, w' = w.setHandle status (some { h with
      exitcode := code.toInt, collected := true, endTime := endTime }) := by
  obtain ⟨h₀, endTime, hhandle₀, rfl, hend⟩ := collectExitStatus_spec hact
  obtain rfl : h = h₀ := Option.some.inj (hhandle.symm.trans hhandle₀)
  refine ⟨hw.of_setHandle hhandle ?_ rfl rfl rfl rfl rfl ?_, endTime, rfl⟩
  · exact .of_handles rfl rfl ⟨[], rfl⟩ fun s => setHandle_none hhandle _
  · refine ⟨(hw.handles status h hhandle).entry, fun _ => hstarted, fun _ => ⟨code, hends, rfl⟩,
      fun ht => ⟨rfl, ?_⟩⟩
    rcases htime with ⟨hnumber, t, hexited⟩ | hkilled
    · rw [(hw.handles status h hhandle).proc_eq hnumber] at hend
      exact Or.inl ⟨code, t, hexited, (hend code t hexited).resolve_left ht⟩
    · exact Or.inr hkilled

/-- An event that neither starts nor closes anything. -/
theorem Sound.record {w : World} (hw : Sound w) {e : Event} (hold : e.status < w.sexps)
    (hstarted : ∀ s pid, e ≠ .started s pid) (hclosed : ∀ s n before, e ≠ .closed s n before) :
    Sound (w.record e) where
  handles s h hh := (hw.handles s h hh).later
    (.of_handles rfl rfl ⟨[e], rfl⟩ fun _ hs => hs) fun _ _ => rfl
  fresh := hw.fresh
  untried s hs := by
    refine (attempts_cons_of_ne ?_ w.log).trans (hw.untried s hs)
    exact Nat.ne_of_lt (hold.trans_le hs)
  owner := hw.owner
  known s pid hs := hw.known s pid ((List.mem_cons.mp hs).resolve_left (Ne.symm (hstarted s pid)))
  one s s' pid pid' hs hs' := hw.one s s' pid pid'
    ((List.mem_cons.mp hs).resolve_left (Ne.symm (hstarted s pid)))
    ((List.mem_cons.mp hs').resolve_left (Ne.symm (hstarted s' pid')))
  closes s n before hc := by
    rcases hw.closes s n before ((List.mem_cons.mp hc).resolve_left (Ne.symm (hclosed s n before)))
      with hnone | ⟨pid, hbefore, hs⟩
    · exact Or.inl hnone
    · exact Or.inr ⟨pid, hbefore, List.mem_cons_of_mem _ hs⟩

/-- A process that runs is told to end. -/
theorem Sound.setProc {w : World} (hw : Sound w) {pid : ℕ} (code : Dword)
    (hrunning : w.procs pid = some .running) : Sound (w.setProc pid (.terminating code)) := by
  refine stable_sound w _ hw ⟨.of_setProc rfl rfl rfl ⟨[], rfl⟩ (fun c hc => ?_) ?_, rfl, rfl, rfl,
    rfl⟩
  · rcases hc with hc | ⟨t, hc⟩ <;> rw [hrunning] at hc <;> cases hc
  · intro c t hc
    rw [hrunning] at hc
    cases hc

/-- Two handles with the same number are those of one object. -/
theorem Sound.injective {w : World} (hw : Sound w) {s s' : Sexp} {h h' : Handle} {n : ℕ}
    (hh : w.handles s = some h) (hh' : w.handles s' = some h') (hn : h.hProcess = some n)
    (hn' : h'.hProcess = some n) : s = s' := by
  have hentry := (hw.handles s h hh).entry n hn
  rw [(hw.handles s' h' hh').entry n hn'] at hentry
  have hborn := (hw.handles s h hh).born (Or.inl (by simp [hn]))
  have hborn' := (hw.handles s' h' hh').born (Or.inl (by simp [hn']))
  exact (hw.one s s' _ _ hborn hborn').mpr (Option.some.inj hentry).symm

/-- The process of an object is closed. -/
theorem sound_closeProcess {w w' : World} {status : Sexp} {h : Handle} {c : Choice} {r : Unit}
    (hw : Sound w) (hhandle : w.handles status = some h)
    (hact : closeProcess status w c = some (r, w')) :
    Sound w' ∧ w'.handles = (w.setHandle status (some { h with hProcess := none })).handles ∧
      w'.log = .closed status h.hProcess (w.process h.hProcess) :: w.log := by
  obtain ⟨h₀, hhandle₀, hhandles, hprocs, hsexps, htable, hlog⟩ := closeProcess_spec hact
  obtain rfl : h = h₀ := Option.some.inj (hhandle.symm.trans hhandle₀)
  have hlater : Later w w' := .of_handles hprocs hsexps ⟨[_], hlog⟩ fun s hs => by
    rw [hhandles]
    exact setHandle_none hhandle _ hs
  have hh := hw.handles status h hhandle
  have hmem : ∀ s pid, Event.started s pid ∈ w'.log → .started s pid ∈ w.log := by
    intro s pid hs
    rw [hlog] at hs
    simpa using hs
  refine ⟨⟨fun s h' hh' => ?_, fun s hs => ?_, fun s hs => ?_, fun n pid hn => ?_,
    fun s pid hs => ?_,
    fun s s' pid pid' hs hs' => hw.one s s' pid pid' (hmem s pid hs) (hmem s' pid' hs'),
    fun s n before hc => ?_⟩, hhandles, hlog⟩
  · rw [hhandles] at hh'
    by_cases heq : s = status
    · rw [heq] at hh' ⊢
      obtain rfl : { h with hProcess := none } = h' := by simpa [World.setHandle] using hh'
      refine ⟨fun n hn => by simp at hn,
        fun hb => hlater.mem (hh.born (Or.inr (by simpa using hb))),
        fun hc => ?_, fun ht => ⟨(hh.time ht).1, ?_⟩⟩
      · obtain ⟨code, hends, hcode⟩ := hh.code hc
        exact ⟨code, hlater.ends _ code hends, hcode⟩
      · rcases (hh.time ht).2 with ⟨code, t, hexited, hend⟩ | hkilled
        · exact Or.inl ⟨code, t, hlater.exited _ code t hexited, hend⟩
        · exact Or.inr (by rwa [hlog, attempts_closed])
    · have hold : w.handles s = some h' := by simpa [World.setHandle, heq] using hh'
      refine (hw.handles s h' hold).later hlater fun n hn => ?_
      rw [htable]
      exact if_neg fun hnumber => heq (hw.injective hold hhandle hn hnumber)
  · rw [hsexps] at hs
    rw [hhandles]
    exact setHandle_none hhandle _ (hw.fresh s hs)
  · rw [hlog, attempts_closed]
    exact hw.untried s (hsexps ▸ hs)
  · by_cases hnumber : h.hProcess = some n
    · simp [htable, hnumber] at hn
    · simp only [htable, if_neg hnumber] at hn
      obtain ⟨s, h', hh', hn'⟩ := hw.owner n pid hn
      refine ⟨s, h', ?_, hn'⟩
      rw [hhandles]
      by_cases heq : s = status
      · rw [heq, hhandle] at hh'
        rw [Option.some.inj hh'] at hnumber
        exact absurd hn' hnumber
      · simpa [World.setHandle, heq] using hh'
  · obtain ⟨hlt, hknown⟩ := hw.known s pid (hmem s pid hs)
    exact ⟨hsexps ▸ hlt, hlater.known pid hknown⟩
  · rw [hlog] at hc
    rcases List.mem_cons.mp hc with heq | hc
    · obtain ⟨rfl, rfl, rfl⟩ := Event.closed.inj heq
      cases hnumber : h.hProcess with
      | none => exact Or.inl ⟨rfl, rfl⟩
      | some m =>
        right
        refine ⟨h.dwProcessId, hh.entry m hnumber, ?_⟩
        exact hlater.mem (hh.born (Or.inl (by simp [hnumber])))
    · rcases hw.closes s n before hc with hnone | ⟨pid, hbefore, hs⟩
      · exact Or.inl hnone
      · exact Or.inr ⟨pid, hbefore, hlater.mem hs⟩

/-- The pointer of an object without an open process is cleared. -/
theorem sound_clearPointer {w w' : World} {status : Sexp} {h : Handle} {c : Choice} {r : Unit}
    (hw : Sound w) (hhandle : w.handles status = some h) (hnumber : h.hProcess = none)
    (hact : clearPointer status w c = some (r, w')) :
    Sound w' ∧ w' = w.setHandle status none := by
  obtain ⟨-, rfl⟩ := Prod.mk.inj (Option.some.inj hact)
  have hlater : Later w (w.setHandle status none) :=
    .of_handles rfl rfl ⟨[], rfl⟩ fun s hs => setHandle_none hhandle _ hs
  refine ⟨⟨fun s h' hh' => ?_, fun s hs => setHandle_none hhandle _ (hw.fresh s hs),
    hw.untried, fun n pid hn => ?_, hw.known, hw.one, hw.closes⟩, rfl⟩
  · by_cases heq : s = status
    · simp [World.setHandle, heq] at hh'
    · exact (hw.handles s h' (by simpa [World.setHandle, heq] using hh')).later hlater
        fun _ _ => rfl
  · obtain ⟨s, h', hh', hn'⟩ := hw.owner n pid hn
    refine ⟨s, h', ?_, hn'⟩
    by_cases heq : s = status
    · rw [heq, hhandle] at hh'
      rw [← Option.some.inj hh', hnumber] at hn'
      cases hn'
    · simpa [World.setHandle, heq] using hh'

/-- What has become of an object does not depend on events for another one. -/
theorem Handle.Phase.cons {h : Handle} {s : Sexp} {log : List Event} (hh : h.Phase s log)
    {e : Event} (he : e.status ≠ s) : h.Phase s (e :: log) := by
  have hsame := attempts_cons_of_ne he log
  cases hh with
  | unborn hnumber hcollected hstarted hattempts =>
    refine .unborn hnumber hcollected (fun pid hmem => ?_) (by rw [hsame, hattempts])
    rcases List.mem_cons.mp hmem with rfl | hmem
    · exact he rfl
    · exact hstarted pid hmem
  | live hnumber hattempts => exact .live hnumber (by rw [hsame, hattempts])
  | killed hnumber hcollected hcode hattempts =>
    exact .killed hnumber hcollected hcode (by rw [hsame, hattempts])
  | lost hnumber hcollected before hattempts =>
    exact .lost hnumber hcollected before (by rw [hsame, hattempts])

/-- Events about other objects do not change the phase of a handle. -/
theorem Handle.Phase.append {h : Handle} {s : Sexp} {log new : List Event} (hh : h.Phase s log)
    (hnew : ∀ e ∈ new, e.status ≠ s) : h.Phase s (new ++ log) := by
  induction new with
  | nil => exact hh
  | cons e new ih =>
    have hrest := ih fun e' he' => hnew e' (List.mem_cons_of_mem _ he')
    exact hrest.cons (hnew e List.mem_cons_self)

/-- A step for one object: the handles of others stay, and all events are about it. -/
theorem Busy.step {s : Sexp} {w w' : World} (hw : Busy s w) (hsound : Sound w')
    (hhandles : ∀ s', s' ≠ s → w'.handles s' = w.handles s') (new : List Event)
    (hlog : w'.log = new ++ w.log) (hnew : ∀ e ∈ new, e.status = s) : Busy s w' where
  toSound := hsound
  others s' h hs hh := by
    rw [hhandles s' hs] at hh
    rw [hlog]
    exact (hw.others s' h hs hh).append fun e he => by rw [hnew e he]; exact Ne.symm hs

/-- Storing a handle leaves the others as they are. -/
theorem handles_setHandle_of_ne (w : World) {s s' : Sexp} (h : s' ≠ s) (h' : Option Handle) :
    (w.setHandle s h').handles s' = w.handles s' := if_neg h

/-- A handle that is stored can be read. -/
@[simp] theorem handles_setHandle_self (w : World) (s : Sexp) (h : Option Handle) :
    (w.setHandle s h).handles s = h := if_pos rfl

/-- An object in between, with its handle. -/
def At (s : Sexp) (h : Handle) (w : World) : Prop := Busy s w ∧ w.handles s = some h

/-- With an object in between, handles are sound. -/
theorem At.sound {s : Sexp} {h : Handle} {w : World} (hw : At s h w) : Sound w := hw.1.toSound

/-- An object in between keeps its handle when processes end. -/
theorem stable_at (s : Sexp) (h : Handle) : Stable (At s h) :=
  (stable_busy s).and (stable_handle s (some h))

/-- An object with a handle was made. -/
theorem Sound.lt_sexps {w : World} (hw : Sound w) {s : Sexp} {h : Handle}
    (hh : w.handles s = some h) : s < w.sexps := by
  by_contra hle
  rw [hw.fresh s (not_lt.mp hle)] at hh
  cases hh

/-- Something of which an assertion stays true. -/
theorem stable_exists {γ : Type} {P : γ → World → Prop} (hP : ∀ x, Stable (P x)) :
    Stable fun w => ∃ x, P x w := by
  rintro w w' ⟨x, hx⟩ hm
  exact ⟨x, hP x w w' hx hm⟩

section Ending

variable {s : Sexp}

/-- The handle of an object is known from when it is read. -/
theorem readHandle_ensures {α : Type} {P : World → Prop} {f : Option Handle → Call α}
    {Q : Except String α → World → Prop} (hP : Kept World.move Sound P)
    (hf : ∀ h, Ensures World.move Sound (fun w => P w ∧ s < w.sexps ∧ w.handles s = h) (f h) Q) :
    Ensures World.move Sound P (Prog.lift (readHandle s) >>= f) Q := by
  refine .step hP (fun h w => P w ∧ s < w.sexps ∧ w.handles s = h) (fun w c r w' hw hact => ?_) hf
  unfold readHandle at hact
  split_ifs at hact with hlt
  obtain ⟨rfl, rfl⟩ := Prod.mk.inj (Option.some.inj hact)
  exact ⟨hw, hlt, rfl⟩

/-- The object has this handle, and this is what was tried to end its process. -/
def Tried (s : Sexp) (h : Handle) (tries : List (Option Proc × Bool)) (w : World) : Prop :=
  At s h w ∧ attempts s w.log = tries

/-- What was tried stays tried when processes end. -/
theorem stable_tried (h : Handle) (tries : List (Option Proc × Bool)) : Stable (Tried s h tries) :=
  (stable_at s h).and (stable_attempts s tries)

/-- An attempt that has come out. A process that was told to end has the code 2. -/
structure Attempt (before : Option Proc) (ok : Bool) (h : Handle) (w : World) : Prop where
  running : ok = true → before = some .running
  ends : ok = true → h.hProcess ≠ none ∧ EndsWith w h.dwProcessId 2

/-- How an attempt has come out stays as it is. -/
theorem stable_attempt (before : Option Proc) (ok : Bool) (h : Handle) :
    Stable (Attempt before ok h) := fun w w' hw hm =>
  ⟨hw.running, fun hok => ⟨(hw.ends hok).1, stable_ends _ _ w w' (hw.ends hok).2 hm⟩⟩

/-- `TerminateProcess()` is tried. -/
theorem terminateProcess_tried {h : Handle} {tries : List (Option Proc × Bool)} {w w' : World}
    {c : Choice} {ok : Bool} (hw : Tried s h tries w)
    (hact : terminateProcess s h.hProcess 2 w c = some (ok, w')) :
    ∃ before, Tried s h ((before, ok) :: tries) w' ∧ Attempt before ok h w' := by
  obtain ⟨⟨hbusy, hhandle⟩, htries⟩ := hw
  rcases terminateProcess_spec hact with ⟨pid, rfl, hpid, hrunning, rfl⟩ | ⟨rfl, rfl⟩
  · have hnumber : h.hProcess ≠ none := by
      intro hnone
      simp [hnone, World.process] at hpid
    have hentry : w.proc h.hProcess = w.procs h.dwProcessId :=
      (hbusy.handles s h hhandle).proc_eq hnumber
    have hsame : pid = h.dwProcessId := by
      obtain ⟨n, hn⟩ := Option.ne_none_iff_exists'.mp hnumber
      have htable := (hbusy.handles s h hhandle).entry n hn
      simp only [World.process, hn, Option.bind_some] at hpid
      rw [hpid] at htable
      exact Option.some.inj htable
    refine ⟨some .running, ⟨⟨hbusy.step ?_ (fun _ _ => rfl) [_] rfl ?_, hhandle⟩, ?_⟩,
      fun _ => rfl, fun _ => ⟨hnumber, Or.inl ?_⟩⟩
    · exact (hbusy.toSound.setProc 2 hrunning).record (hbusy.toSound.lt_sexps hhandle) (by simp)
        (by simp)
    · simp [Event.status]
    · change attempts s (_ :: w.log) = _
      rw [attempts_terminate_self, htries]
    · simp [World.setProc, World.record, hsame]
  · refine ⟨w.proc h.hProcess, ⟨⟨hbusy.step ?_ (fun _ _ => rfl) [_] rfl ?_, hhandle⟩, ?_⟩,
      fun h => by simp at h, fun h => by simp at h⟩
    · exact hbusy.toSound.record (hbusy.toSound.lt_sexps hhandle) (by simp) (by simp)
    · simp [Event.status]
    · change attempts s (_ :: w.log) = _
      rw [attempts_terminate_self, htries]

/-- The status of a process that was told to end is stored. -/
theorem collectExitStatus_tried {h : Handle} {tries : List (Option Proc × Bool)} {w w' : World}
    {c : Choice} {r : Unit} {code : Dword} (hw : Tried s h tries w) (hnumber : h.hProcess ≠ none)
    (hends : EndsWith w h.dwProcessId code)
    (htime : (∃ t, w.procs h.dwProcessId = some (.exited code t)) ∨ (some .running, true) ∈ tries)
    (hact : collectExitStatus s code w c = some (r, w')) :
    ∃ endTime, Tried s { h with
      exitcode := code.toInt, collected := true, endTime := endTime } tries w' ∧
        EndsWith w' h.dwProcessId code := by
  obtain ⟨⟨hbusy, hhandle⟩, htries⟩ := hw
  obtain ⟨hsound, endTime, rfl⟩ := sound_collectExitStatus hbusy.toSound hhandle
    ((hbusy.handles s h hhandle).born (Or.inl hnumber)) hends
    (htime.imp (fun ht => ⟨hnumber, ht⟩) fun hmem => by rwa [htries]) hact
  refine ⟨endTime, ⟨⟨hbusy.step hsound (fun s' hs => ?_) [] rfl nofun, ?_⟩, htries⟩, hends⟩
  · exact handles_setHandle_of_ne w hs _
  · exact handles_setHandle_self w s _

/-- The process of an object is closed. -/
theorem closeProcess_tried {h : Handle} {tries : List (Option Proc × Bool)} {w w' : World}
    {c : Choice} {r : Unit} (hw : Tried s h tries w)
    (hact : closeProcess s w c = some (r, w')) :
    Tried s { h with hProcess := none } tries w' := by
  obtain ⟨⟨hbusy, hhandle⟩, htries⟩ := hw
  obtain ⟨hsound, hhandles, hlog⟩ := sound_closeProcess hbusy.toSound hhandle hact
  refine ⟨⟨hbusy.step hsound (fun s' hs => ?_) [_] hlog ?_, ?_⟩, ?_⟩
  · rw [hhandles]
    exact handles_setHandle_of_ne w hs _
  · simp [Event.status]
  · rw [hhandles]
    exact handles_setHandle_self w s _
  · rw [hlog, attempts_closed, htries]

/-- The attempt is over: the status of a process that was told to end is stored. -/
def Over (s : Sexp) (ok : Bool) (tries : List (Option Proc × Bool)) (w : World) : Prop :=
  ∃ (h : Handle) (before : Option Proc), Tried s h ((before, ok) :: tries) w ∧
    h.collected = ok ∧ (ok = true → before = some .running ∧ h.exitcode = 2)

/-- An attempt that is over stays over. -/
theorem stable_over (ok : Bool) (tries : List (Option Proc × Bool)) : Stable (Over s ok tries) :=
  stable_exists fun h => stable_exists fun _ => (stable_tried h _).and (stable_const _)

/-- What `processx__terminate()` leaves: the process is closed as well. -/
def Ended (s : Sexp) (ok : Bool) (tries : List (Option Proc × Bool)) (w : World) : Prop :=
  ∃ (h : Handle) (before : Option Proc), Tried s h ((before, ok) :: tries) w ∧
    h.hProcess = none ∧ h.collected = ok ∧ (ok = true → before = some .running ∧ h.exitcode = 2)

/-- So does what `processx__terminate()` leaves. -/
theorem stable_ended (ok : Bool) (tries : List (Option Proc × Bool)) : Stable (Ended s ok tries) :=
  stable_exists fun h => stable_exists fun _ => (stable_tried h _).and (stable_const _)

/-- The status of a process that was told to end. -/
theorem collectTerminated_ensures {h : Handle} (hcollected : h.collected = false) (ok : Bool)
    (tries : List (Option Proc × Bool)) :
    Ensures World.move Sound
      (fun w => ∃ before, Tried s h ((before, ok) :: tries) w ∧ Attempt before ok h w)
      (collectTerminated s ok) (fun r w => r = .ok () ∧ Over s ok tries w) := by
  have hkept : Kept World.move Sound
      fun w => ∃ before, Tried s h ((before, ok) :: tries) w ∧ Attempt before ok h w :=
    (stable_exists fun before => (stable_tried h _).and (stable_attempt before ok h)).kept
      fun w ⟨_, hw, _⟩ => hw.1.sound
  cases ok with
  | false =>
    refine .ret hkept fun w hw => ⟨rfl, ?_⟩
    obtain ⟨before, htried, -⟩ := hw
    exact ⟨h, before, htried, hcollected, nofun⟩
  | true =>
    refine .act hkept (fun _ w => Over s true tries w) (fun w c r w' hw hact => ?_) fun _ => ?_
    · obtain ⟨before, htried, hattempt⟩ := hw
      obtain rfl := hattempt.running rfl
      obtain ⟨hnumber, hends⟩ := hattempt.ends rfl
      obtain ⟨endTime, htried', -⟩ := collectExitStatus_tried htried hnumber hends
        (Or.inr List.mem_cons_self) hact
      exact ⟨_, some .running, htried', rfl, fun _ => ⟨rfl, rfl⟩⟩
    · exact .ret ((stable_over true tries).kept fun w ⟨_, _, hw, _⟩ => hw.1.sound)
        fun w hw => ⟨rfl, hw⟩

/-- `processx__terminate()` ends the process or not, stores its status if it has, and closes it. -/
theorem terminate_ensures {h : Handle} (hcollected : h.collected = false)
    (tries : List (Option Proc × Bool)) :
    Ensures World.move Sound (Tried s h tries) (terminate s)
      (fun r w => ∃ ok, r = .ok ok ∧ Ended s ok tries w) := by
  have hkept : ∀ h tries, Kept World.move Sound (Tried s h tries) := fun h tries =>
    (stable_tried h tries).kept fun w hw => hw.1.sound
  have hover : ∀ ok, Kept World.move Sound (Over s ok tries) := fun ok =>
    (stable_over ok tries).kept fun w ⟨_, _, hw, _⟩ => hw.1.sound
  have hended : ∀ ok, Kept World.move Sound (Ended s ok tries) := fun ok =>
    (stable_ended ok tries).kept fun w ⟨_, _, hw, _⟩ => hw.1.sound
  refine readHandle_ensures (hkept h tries) fun handle => ?_
  cases handle with
  | none =>
    intro w o w' hw
    exact absurd (hw.1.1.2.symm.trans hw.2.2) nofun
  | some h₁ =>
    refine Ensures.conseq (R := fun w => h₁ = h ∧ Tried s h tries w) ?_ (fun w hw => ?_)
      fun _ _ hq => hq
    · refine .of_fact ?_
      rintro rfl
      -- the attempt
      refine .step (hkept h₁ tries) (fun ok w => ∃ before,
        Tried s h₁ ((before, ok) :: tries) w ∧ Attempt before ok h₁ w)
        (fun w c ok w' hw hact => terminateProcess_tried hw hact) fun ok => ?_
      refine .bind (collectTerminated_ensures hcollected ok tries) (fun _ => ?_) ?_
      · have hover' : Kept World.move Sound
            fun w => (Except.ok () : Except String Unit) = .ok () ∧ Over s ok tries w :=
          ((stable_const _).and (stable_over ok tries)).kept fun w ⟨_, _, _, hw, _⟩ => hw.1.sound
        -- the process may end while it is waited for
        refine .step hover' (fun _ w => Over s ok tries w) (fun w c r w' hw hact => ?_) fun _ => ?_
        · rw [(waitForSingleObject_spec hact).1]
          exact hw.2
        refine .step (hover ok) (fun _ w => Ended s ok tries w) (fun w c r w' hw hact => ?_)
          fun _ => ?_
        · obtain ⟨h, before, htried, hok⟩ := hw
          exact ⟨_, before, closeProcess_tried htried hact, rfl, hok⟩
        · exact .ret (hended ok) fun w hw => ⟨ok, rfl, hw⟩
      · rintro e w ⟨heq, -⟩
        cases heq
    · exact ⟨Option.some.inj (hw.2.2.symm.trans hw.1.1.2), hw.1⟩

end Ending

section Asking

variable {s : Sexp} {h : Handle} {α : Type} {Q : Except String α → World → Prop}

/-- An object between calls, with its handle. -/
structure Current (s : Sexp) (h : Handle) (w : World) : Prop extends Settled w where
  old : s < w.sexps
  handle : w.handles s = some h

/-- An object between two calls keeps its handle when processes end. -/
theorem stable_current (s : Sexp) (h : Handle) : Stable (Current s h) := fun w w' hw hm =>
  ⟨stable_settled w w' hw.toSettled hm, hm.sexps ▸ hw.old, by rw [hm.handles]; exact hw.handle⟩

/-- A moment between two calls stays one, and is sound. -/
theorem kept_settled : Kept World.move Sound Settled := stable_settled.kept fun _ hw => hw.toSound

/-- The same with the handle of an object. -/
theorem kept_current : Kept World.move Sound (Current s h) :=
  (stable_current s h).kept fun _ hw => hw.toSound

/-- The object has no handle any more. -/
def Gone (s : Sexp) (w : World) : Prop := s < w.sexps ∧ w.handles s = none

/-- An object without a handle gets none. -/
theorem kept_gone (s : Sexp) : Kept World.move Sound fun w => Settled w ∧ Gone s w := by
  refine (stable_settled.and fun w w' hw hm => ⟨hm.sexps ▸ hw.1, ?_⟩).kept fun w hw => hw.1.toSound
  rw [hm.handles]
  exact hw.2

/-- The process of an object is over, or the object has no handle any more. -/
def Known (s : Sexp) (w : World) : Prop :=
  Gone s w ∨ ∃ pid c, .started s pid ∈ w.log ∧ EndsWith w pid c

/-- If the exit status is collected, then the process is over, and the status is its code. -/
theorem Current.known_of_collected {w : World} (hw : Current s h w)
    (hcollected : h.collected = true) :
    ∃ pid c, .started s pid ∈ w.log ∧ EndsWith w pid c ∧ h.exitcode = c.toInt := by
  have hh := hw.handles s h hw.handle
  obtain ⟨c, hends, hcode⟩ := hh.code hcollected
  exact ⟨h.dwProcessId, c, hh.born (Or.inr hcollected), hends, hcode⟩

/-- A call that reads the handle of an object first. -/
theorem current_ensures {f : Option Handle → Call α}
    (hgone : Ensures World.move Sound (fun w => Settled w ∧ Gone s w) (f none) Q)
    (hcurrent : ∀ h, Ensures World.move Sound (Current s h) (f (some h)) Q) :
    Ensures World.move Sound Settled (Prog.lift (readHandle s) >>= f) Q := by
  refine readHandle_ensures kept_settled fun handle => ?_
  cases handle with
  | none => exact hgone
  | some h => exact (hcurrent h).conseq (fun w hw => ⟨hw.1, hw.2.1, hw.2.2⟩) fun _ _ hq => hq

/-- The process of an object has ended with a code. -/
def HasExited (s : Sexp) (h : Handle) (code : Dword) (w : World) : Prop :=
  Current s h w ∧ h.hProcess ≠ none ∧ ∃ t, w.procs h.dwProcessId = some (.exited code t)

/-- A process that has ended with a code has ended with it. -/
theorem kept_hasExited (code : Dword) : Kept World.move Sound (HasExited s h code) :=
  ((stable_current s h).and ((stable_const _).and (stable_exited _ code))).kept
    fun _ hw => hw.1.toSound

/-- `GetExitCodeProcess()`: it fails, or the process is there, or it has ended. -/
theorem getExitCodeProcess_ensures {f : Option Dword → Call α}
    (hfailed : Ensures World.move Sound (Current s h) (f none) Q)
    (hactive : Ensures World.move Sound (fun w => Current s h w ∧ h.hProcess ≠ none)
      (f (some stillActive)) Q)
    (hexited : ∀ code, Ensures World.move Sound (HasExited s h code) (f (some code)) Q) :
    Ensures World.move Sound (Current s h)
      (Prog.lift (getExitCodeProcess h.hProcess) >>= f) Q := by
  have hopen : ∀ w : World, w.proc h.hProcess ≠ none → h.hProcess ≠ none := by
    intro w hproc hnone
    exact hproc (by simp [hnone, World.proc, World.process])
  refine .step kept_current (fun r w => Current s h w ∧ (r = none ∨
    (∃ code, r = some code ∧ HasExited s h code w) ∨ r = some stillActive ∧ h.hProcess ≠ none))
    (fun w c r w' hw hact => ?_) fun r => ?_
  · obtain ⟨rfl, hnone | ⟨code, t, hcode, hproc⟩ | ⟨hactive', hproc, -⟩⟩ :=
      getExitCodeProcess_spec hact
    · exact ⟨hw, Or.inl hnone⟩
    · have hnumber := hopen w' (by simp [hproc])
      rw [(hw.handles s h hw.handle).proc_eq hnumber] at hproc
      exact ⟨hw, Or.inr (Or.inl ⟨code, hcode, hw, hnumber, t, hproc⟩)⟩
    · exact ⟨hw, Or.inr (Or.inr ⟨hactive', hopen w' hproc⟩)⟩
  · rintro w o w' ⟨hw, rfl | ⟨code, rfl, hw'⟩ | ⟨rfl, hnumber⟩⟩ hrun
    · exact hfailed w o w' hw hrun
    · exact hexited code w o w' hw' hrun
    · exact hactive w o w' ⟨hw, hnumber⟩ hrun

/-- The same for a process that is known to have ended. -/
theorem getExitCodeProcess_exited {code : Dword} {f : Option Dword → Call α}
    (hfailed : Ensures World.move Sound (HasExited s h code) (f none) Q)
    (hexited : Ensures World.move Sound (HasExited s h code) (f (some code)) Q) :
    Ensures World.move Sound (HasExited s h code)
      (Prog.lift (getExitCodeProcess h.hProcess) >>= f) Q := by
  refine .step (kept_hasExited code) (fun r w => (r = none ∨ r = some code) ∧ HasExited s h code w)
    (fun w c r w' hw hact => ?_) fun r => .of_fact ?_
  · have hproc : w.proc h.hProcess = w.procs h.dwProcessId :=
      (hw.1.handles s h hw.1.handle).proc_eq hw.2.1
    obtain ⟨t, ht⟩ := hw.2.2
    rw [ht] at hproc
    obtain ⟨rfl, hnone | ⟨code', t', hcode, hproc'⟩ | ⟨-, -, hnot⟩⟩ := getExitCodeProcess_spec hact
    · exact ⟨Or.inl hnone, hw⟩
    · rw [hproc] at hproc'
      obtain ⟨rfl, -⟩ := Proc.exited.inj (Option.some.inj hproc')
      exact ⟨Or.inr hcode, hw⟩
    · exact absurd hproc (hnot code t)
  · rintro (rfl | rfl)
    · exact hfailed
    · exact hexited

/-- The code with which the process of an object ends is stored. -/
structure Stored (s : Sexp) (code : Dword) (h : Handle) (w : World) : Prop extends
    Current s h w where
  collected : h.collected = true
  value : h.exitcode = code.toInt
  started : .started s h.dwProcessId ∈ w.log
  ends : EndsWith w h.dwProcessId code

/-- A code that is stored stays stored. -/
theorem kept_stored (s : Sexp) (code : Dword) :
    Kept World.move Sound fun w => ∃ h, Stored s code h w := by
  refine Stable.kept (stable_exists fun h w w' hw hm => ?_) fun w ⟨h, hw⟩ => hw.toSound
  exact ⟨stable_current s h w w' hw.toCurrent hm, hw.collected, hw.value, hm.later.mem hw.started,
    hm.later.ends _ code hw.ends⟩

/-- The code of a process that has ended is stored. -/
theorem collect_stored {code : Dword} {w w' : World} {c : Choice} {r : Unit}
    (hw : HasExited s h code w) (hact : collectExitStatus s code w c = some (r, w')) :
    ∃ h', Stored s code h' w' := by
  obtain ⟨hcurrent, hnumber, t, ht⟩ := hw
  have hborn := (hcurrent.handles s h hcurrent.handle).born (Or.inl hnumber)
  have hends : EndsWith w h.dwProcessId code := Or.inr ⟨t, ht⟩
  obtain ⟨hsound, endTime, rfl⟩ := sound_collectExitStatus hcurrent.toSound hcurrent.handle hborn
    hends (Or.inl ⟨hnumber, t, ht⟩) hact
  refine ⟨_, ⟨⟨hsound, fun s' h' hh' => ?_⟩, hcurrent.old, handles_setHandle_self w s _⟩, rfl, rfl,
    hborn, hends⟩
  by_cases heq : s' = s
  · subst heq
    rw [handles_setHandle_self] at hh'
    obtain rfl := Option.some.inj hh'
    -- an open process was not tried to be ended
    cases hcurrent.phase s' h hcurrent.handle with
    | live _ hattempts => exact .live hnumber hattempts
    | unborn hnone | killed hnone | lost hnone => exact absurd hnone hnumber
  · rw [handles_setHandle_of_ne w heq] at hh'
    exact hcurrent.phase s' h' hh'

/-- A call that stores the code of a process that has ended, and goes on. -/
theorem collect_ensures {code : Dword} {f : Call α}
    (hf : Ensures World.move Sound (fun w => ∃ h, Stored s code h w) f Q) :
    Ensures World.move Sound (HasExited s h code)
      (Prog.lift (collectExitStatus s code) >>= fun _ => f) Q :=
  .step (kept_hasExited code) (fun _ => _) (fun _ _ _ _ hw hact => collect_stored hw hact)
    fun _ => hf

end Asking

section Answers

variable {s : Sexp}

/-- The answer of a call whose object has no handle any more. -/
theorem gone_ensures {α : Type} (a : α) :
    Ensures World.move Sound (fun w => Settled w ∧ Gone s w) (.ret a : Call α)
      (fun r w => Settled w ∧ Gone s w ∧ r = .ok a) :=
  .ret (kept_gone s) fun _ hw => ⟨hw.1, hw.2, rfl⟩

/-- If the code is stored, then the process is over. -/
theorem Stored.isKnown {code : Dword} {h : Handle} {w : World} (hw : Stored s code h w) :
    Known s w :=
  Or.inr ⟨_, _, hw.started, hw.ends⟩

/-- A fact that does not depend on the state stays true. -/
theorem kept_open {h : Handle} (φ : Prop) : Kept World.move Sound fun w => Current s h w ∧ φ :=
  ((stable_current s h).and (stable_const φ)).kept fun _ hw => hw.1.toSound

/-- A process that is not alive is over. -/
theorem processxIsAlive_ensures (s : Sexp) : Ensures World.move Sound Settled (processxIsAlive s)
    (fun r w => Settled w ∧ (r = .ok false → Known s w)) := by
  refine current_ensures ?_ fun h => ?_
  · exact (gone_ensures false).conseq (fun _ hw => hw) fun r w hw => ⟨hw.1, fun _ => Or.inl hw.2.1⟩
  · dsimp only
    split_ifs with hcollected
    · refine .ret kept_current fun w hw => ⟨hw.toSettled, fun _ => ?_⟩
      obtain ⟨pid, c, hstarted, hends, -⟩ := hw.known_of_collected hcollected
      exact Or.inr ⟨pid, c, hstarted, hends⟩
    · refine getExitCodeProcess_ensures
        (.throw kept_current fun w hw => ⟨hw.toSettled, nofun⟩) ?_ ?_
      · exact .ret (kept_open _) fun w hw => ⟨hw.1.toSettled, nofun⟩
      · intro code
        dsimp only
        split_ifs
        · exact .ret (kept_hasExited code) fun w hw => ⟨hw.1.toSettled, nofun⟩
        · exact collect_ensures (.ret (kept_stored s code) fun w ⟨h, hw⟩ =>
            ⟨hw.toSettled, fun _ => hw.isKnown⟩)

/-- An exit status is that of the process. -/
theorem processxGetExitStatus_ensures (s : Sexp) :
    Ensures World.move Sound Settled (processxGetExitStatus s) (fun r w => Settled w ∧
      ∀ n, r = .ok (some n) → ∃ pid c, .started s pid ∈ w.log ∧ EndsWith w pid c ∧
        n = c.toInt) := by
  refine current_ensures ?_ fun h => ?_
  · refine (gone_ensures none).conseq (fun _ hw => hw) fun r w hw => ⟨hw.1, fun n hn => ?_⟩
    rw [hw.2.2] at hn
    cases hn
  · dsimp only
    split_ifs with hcollected
    · refine .ret kept_current fun w hw => ⟨hw.toSettled, fun n hn => ?_⟩
      obtain ⟨pid, c, hstarted, hends, hcode⟩ := hw.known_of_collected hcollected
      obtain rfl : h.exitcode = n := by simpa using hn
      exact ⟨pid, c, hstarted, hends, hcode⟩
    · refine getExitCodeProcess_ensures
        (.throw kept_current fun w hw => ⟨hw.toSettled, nofun⟩) ?_ ?_
      · exact .ret (kept_open _) fun w hw => ⟨hw.1.toSettled, nofun⟩
      · intro code
        dsimp only
        split_ifs
        · exact .ret (kept_hasExited code) fun w hw => ⟨hw.1.toSettled, nofun⟩
        · refine collect_ensures ?_
          -- the status is read from the handle
          refine .step (kept_stored s code)
            (fun n w => (∃ h, Stored s code h w) ∧ n = code.toInt) (fun w c n w' hw hact => ?_)
            fun n => ?_
          · obtain ⟨h', hstored⟩ := hw
            rw [readExitcode, hstored.handle] at hact
            obtain ⟨rfl, rfl⟩ := Prod.mk.inj (Option.some.inj hact)
            exact ⟨⟨h', hstored⟩, hstored.value⟩
          refine .ret (Kept.and (kept_stored s code) fun w m w' hw _ => hw) fun w hw => ?_
          obtain ⟨⟨h', hstored⟩, rfl⟩ := hw
          refine ⟨hstored.toSettled, fun n hn => ⟨h'.dwProcessId, code, hstored.started,
            hstored.ends, ?_⟩⟩
          simpa using hn.symm

/-- A time is that of the end of the process, unless the package has ended it. -/
theorem procEndTime_ensures (s : Sexp) :
    Ensures World.move Sound Settled (procEndTime s) (fun r w => Settled w ∧
      ∀ t, r = .ok (some t) → (some .running, true) ∈ attempts s w.log ∨
        ∃ pid c t', .started s pid ∈ w.log ∧ w.procs pid = some (.exited c t') ∧
          t = t' - epochStart) := by
  refine current_ensures ?_ fun h => ?_
  · exact .throw (kept_gone s) fun w hw => ⟨hw.1, nofun⟩
  · dsimp only
    split_ifs with hzero
    · exact .ret kept_current fun w hw => ⟨hw.toSettled, nofun⟩
    · refine .ret kept_current fun w hw => ⟨hw.toSettled, fun t ht => ?_⟩
      obtain rfl : h.endTime = t := by simpa using ht
      have hh := hw.handles s h hw.handle
      obtain ⟨hcollected, ⟨c, t', hexited, hend⟩ | hkilled⟩ := hh.time hzero
      · exact Or.inr ⟨h.dwProcessId, c, t', hh.born (Or.inr hcollected), hexited, hend⟩
      · exact Or.inl hkilled

/-- A wait that is over: its process has ended. -/
def Waited (s : Sexp) (h : Handle) (err : WaitAnswer) (w : World) : Prop :=
  Current s h w ∧ (err = .object → ∃ code, HasExited s h code w)

/-- A wait that is over stays over. -/
theorem kept_waited (h : Handle) (err : WaitAnswer) : Kept World.move Sound (Waited s h err) := by
  refine Stable.kept ((stable_current s h).and fun w w' hw hm herr => ?_) fun w hw => hw.1.toSound
  obtain ⟨code, hcurrent, hnumber, hexited⟩ := hw herr
  exact ⟨code, stable_current s h w w' hcurrent hm, hnumber, stable_exited _ code w w' hexited hm⟩

/-- `WaitForSingleObject()` says that the process has ended only if it has. -/
theorem waited_of_answer {h : Handle} {ms : Option ℤ} {w w' : World} {c : Choice} {r : WaitAnswer}
    (hw : Current s h w) (hact : waitForSingleObject h.hProcess ms w c = some (r, w')) :
    Waited s h r w' := by
  obtain ⟨rfl, hobject, -⟩ := waitForSingleObject_spec hact
  refine ⟨hw, fun hr => ?_⟩
  obtain ⟨code, t, hproc⟩ := hobject hr
  have hnumber : h.hProcess ≠ none := by
    intro hnone
    simp [hnone, World.proc, World.process] at hproc
  rw [(hw.handles s h hw.handle).proc_eq hnumber] at hproc
  exact ⟨code, hw, hnumber, t, hproc⟩

/-- So does the loop of a wait. -/
theorem waitLoop_ensures (h : Handle) (ctimeout : ℤ) (rounds : ℕ) (timeleft : ℤ) :
    Ensures World.move Sound (Current s h) (waitLoop h.hProcess ctimeout rounds timeleft)
      (fun r w => Current s h w ∧ ∀ a, r = .ok a → Waited s h a.1 w) := by
  induction rounds generalizing timeleft with
  | zero => exact .spin kept_current
  | succ rounds ih =>
    rw [waitLoop]
    split_ifs with htime
    · refine .step kept_current (Waited s h) (fun w c r w' hw hact => waited_of_answer hw hact)
        fun err => ?_
      split_ifs with herr
      · refine .ret (kept_waited h err) fun w hw => ⟨hw.1, fun a ha => ?_⟩
        rw [← Except.ok.inj ha]
        exact hw
      · refine .step (kept_waited h err) (fun _ => Current s h) (fun w c r w' hw hact => ?_)
          fun interrupted => ?_
        · obtain ⟨-, rfl⟩ := Prod.mk.inj (Option.some.inj hact)
          exact hw.1
        · split_ifs
          · exact .throw kept_current fun w hw => ⟨hw, nofun⟩
          · exact ih _
    · refine .ret kept_current fun w hw => ⟨hw, fun a ha => ?_⟩
      rw [← Except.ok.inj ha]
      exact ⟨hw, nofun⟩

/-- So does the rest of it. -/
theorem waitRest_ensures (h : Handle) (err : WaitAnswer) (timeleft : ℤ) :
    Ensures World.move Sound (Waited s h err) (waitRest h.hProcess err timeleft)
      (fun r w => Current s h w ∧ ∀ a, r = .ok a → Waited s h a w) := by
  rw [waitRest]
  split_ifs
  · refine .act (kept_waited h err) (Waited s h)
      (fun w c r w' hw hact => waited_of_answer hw.1 hact) fun r => ?_
    refine .ret (kept_waited h r) fun w hw => ⟨hw.1, ?_⟩
    rintro a ha
    rw [← Except.ok.inj ha]
    exact hw
  · refine .ret (kept_waited h err) fun w hw => ⟨hw.1, fun a ha => ?_⟩
    rw [← Except.ok.inj ha]
    exact hw

/-- A wait that returns `TRUE` has seen the end of the process. -/
theorem processxWait_ensures (rounds : ℕ) (s : Sexp) (timeout : ℤ) :
    Ensures World.move Sound Settled (processxWait rounds s timeout)
      (fun r w => Settled w ∧ (r = .ok true → Known s w)) := by
  refine current_ensures ?_ fun h => ?_
  · exact (gone_ensures true).conseq (fun _ hw => hw) fun r w hw => ⟨hw.1, fun _ => Or.inl hw.2.1⟩
  · dsimp only
    split_ifs with hcollected
    · refine .ret kept_current fun w hw => ⟨hw.toSettled, fun _ => ?_⟩
      obtain ⟨pid, c, hstarted, hends, -⟩ := hw.known_of_collected hcollected
      exact Or.inr ⟨pid, c, hstarted, hends⟩
    · refine .bind (waitLoop_ensures h timeout rounds timeout) (fun a => ?_)
        fun e w hw => ⟨hw.1.toSettled, nofun⟩
      refine .bind (R := fun r w => Current s h w ∧ ∀ a, r = .ok a → Waited s h a w)
        ((waitRest_ensures h a.1 a.2).conseq (fun w hw => hw.2 a rfl) fun _ _ hq => hq)
        (fun err => ?_) fun e w hw => ⟨hw.1.toSettled, nofun⟩
      refine .conseq (R := Waited s h err) ?_ (fun w hw => hw.2 err rfl) fun _ _ hq => hq
      cases err with
      | failed => exact .throw (kept_waited h _) fun w hw => ⟨hw.1.toSettled, nofun⟩
      | timeout => exact .ret (kept_waited h _) fun w hw => ⟨hw.1.toSettled, nofun⟩
      | object =>
        refine .conseq (R := fun w => ∃ code, HasExited s h code w) (.of_exists fun code => ?_)
          (fun w hw => hw.2 rfl) fun _ _ hq => hq
        exact getExitCodeProcess_exited
          (.throw (kept_hasExited code) fun w hw => ⟨hw.1.toSettled, nofun⟩)
          (collect_ensures (.ret (kept_stored s code) fun w ⟨h, hw⟩ =>
            ⟨hw.toSettled, fun _ => hw.isKnown⟩))

/-- The package has ended the process of an object. -/
def Killed (s : Sexp) (w : World) : Prop :=
  (some .running, true) ∈ attempts s w.log ∧ ∃ pid, .started s pid ∈ w.log ∧ EndsWith w pid 2

/-- What `processx__terminate()` leaves of an object with an open process. -/
theorem Ended.settled {ok : Bool} {w : World} (hw : Ended s ok [] w) :
    Settled w ∧ (ok = true → Killed s w) := by
  obtain ⟨h, before, ⟨⟨hbusy, hhandle⟩, htries⟩, hnumber, hcollected, hok⟩ := hw
  refine ⟨hbusy.settled fun h' hh' => ?_, ?_⟩
  · obtain rfl : h = h' := Option.some.inj (hhandle.symm.trans hh')
    cases ok with
    | false => exact .lost hnumber hcollected before htries
    | true =>
      obtain ⟨rfl, hcode⟩ := hok rfl
      exact .killed hnumber hcollected hcode htries
  · rintro rfl
    obtain ⟨rfl, hcode⟩ := hok rfl
    have hh := hbusy.handles s h hhandle
    obtain ⟨c, hends, hvalue⟩ := hh.code hcollected
    have htwo : c = 2 := BitVec.toInt_inj.mp (hvalue.symm.trans hcode)
    rw [htwo] at hends
    exact ⟨by rw [htries]; exact List.mem_singleton_self _, h.dwProcessId,
      hh.born (Or.inr hcollected), hends⟩

/-- An object with an open process was not tried to be ended. -/
theorem Current.tried {h : Handle} {w : World} (hw : Current s h w) (hnumber : h.hProcess ≠ none) :
    Tried s h [] w := by
  refine ⟨⟨hw.toSettled.busy s, hw.handle⟩, ?_⟩
  cases hw.phase s h hw.handle with
  | live _ hattempts => exact hattempts
  | unborn hnone | killed hnone | lost hnone => exact absurd hnone hnumber

/-- A signal that returns `TRUE` has ended the process, unless it only asks. -/
theorem processxSignal_ensures (s : Sexp) (sig : ℤ) :
    Ensures World.move Sound Settled (processxSignal s sig)
      (fun r w => Settled w ∧ (r = .ok true → sig = 0 ∨ Killed s w)) := by
  refine current_ensures ?_ fun h => ?_
  · refine (gone_ensures false).conseq (fun _ hw => hw) fun r w hw => ⟨hw.1, fun hr => ?_⟩
    rw [hw.2.2] at hr
    cases hr
  · dsimp only
    split_ifs with hcollected hsig hzero
    · exact .ret kept_current fun w hw => ⟨hw.toSettled, nofun⟩
    · have hterminate : Ensures World.move Sound (fun w => Current s h w ∧ h.hProcess ≠ none)
          (terminate s) (fun r w => Settled w ∧ (r = .ok true → sig = 0 ∨ Killed s w)) := by
        refine (terminate_ensures (by simpa using hcollected) []).conseq
          (fun w hw => hw.1.tried hw.2) fun r w ⟨ok, hr, hended⟩ =>
            ⟨hended.settled.1, fun hok => ?_⟩
        rw [hr] at hok
        exact Or.inr (hended.settled.2 (Except.ok.inj hok))
      refine getExitCodeProcess_ensures (.throw kept_current fun w hw => ⟨hw.toSettled, nofun⟩)
        ?_ fun code => ?_
      · exact hterminate
      · dsimp only
        split_ifs
        · exact hterminate.conseq (fun w hw => ⟨hw.1, hw.2.1⟩) fun _ _ hq => hq
        · exact collect_ensures (.ret (kept_stored s code) fun w ⟨h, hw⟩ => ⟨hw.toSettled, nofun⟩)
    · refine getExitCodeProcess_ensures (.throw kept_current fun w hw => ⟨hw.toSettled, nofun⟩)
        ?_ fun code => ?_
      · exact .ret (kept_open _) fun w hw => ⟨hw.1.toSettled, fun _ => Or.inl hzero⟩
      · exact .ret (kept_hasExited code) fun w hw => ⟨hw.1.toSettled, fun _ => Or.inl hzero⟩
    · exact .throw kept_current fun w hw => ⟨hw.toSettled, nofun⟩

end Answers

section Objects

variable {s : Sexp}

/-- An object in between has a handle. -/
theorem kept_inHand (φ : Handle → Prop) :
    Kept World.move Sound fun w => ∃ h, At s h w ∧ φ h :=
  (stable_exists fun h => (stable_at s h).and (stable_const _)).kept fun _ ⟨_, hw, _⟩ => hw.sound

/-- The finalizer ends the process if it has to. -/
theorem terminateIfNeeded_ensures (h : Handle) :
    Ensures World.move Sound (At s h) (terminateIfNeeded s h)
      (fun r w => r = .ok () ∧ ∃ h, At s h w) := by
  rw [terminateIfNeeded]
  split_ifs with hneeded
  · refine .conseq (R := fun w => ∃ tries, Tried s h tries w) (.of_exists fun tries => ?_)
      (fun w hw => ⟨_, hw, rfl⟩) fun _ _ hq => hq
    refine .bind (terminate_ensures hneeded.2 tries) (fun ok => ?_) ?_
    · refine .conseq (R := fun w => ∃ h, At s h w ∧ True) (.ret (kept_inHand _) ?_) ?_
        fun _ _ hq => hq
      · exact fun w ⟨h, hw, _⟩ => ⟨rfl, h, hw⟩
      · rintro w ⟨ok', -, h', before, htried, -⟩
        exact ⟨h', htried.1, trivial⟩
    · rintro e w ⟨ok, heq, -⟩
      cases heq
  · exact .ret ((stable_at s h).kept fun _ hw => hw.sound) fun w hw => ⟨rfl, h, hw⟩

/-- Then it closes the process handle. -/
theorem closeIfOpen_ensures :
    Ensures World.move Sound (fun w => ∃ h, At s h w) (closeIfOpen s)
      (fun r w => r = .ok () ∧ ∃ h, At s h w ∧ h.hProcess = none) := by
  refine .of_exists fun h => readHandle_ensures
    ((stable_at s h).kept fun _ hw => hw.sound) fun handle => ?_
  cases handle with
  | none =>
    intro w o w' hw
    exact absurd (hw.1.2.symm.trans hw.2.2) nofun
  | some h₁ =>
    refine .conseq (R := At s h₁) ?_ (fun w hw => ⟨hw.1.1, hw.2.2⟩) fun _ _ hq => hq
    have hkept : Kept World.move Sound (At s h₁) := (stable_at s h₁).kept fun _ hw => hw.sound
    dsimp only
    split_ifs with hopen
    · refine .act hkept (fun _ w => ∃ h, At s h w ∧ h.hProcess = none)
        (fun w c r w' hw hact => ⟨_, (closeProcess_tried ⟨hw, rfl⟩ hact).1, rfl⟩) fun _ => ?_
      exact .ret (kept_inHand _) fun w hw => ⟨rfl, hw⟩
    · exact .ret hkept fun w hw => ⟨rfl, h₁, hw, by simpa using hopen⟩

/-- The pointer of an object is cleared. -/
theorem clearPointer_settled {h : Handle} {w w' : World} {c : Choice} {r : Unit} (hw : At s h w)
    (hnumber : h.hProcess = none) (hact : clearPointer s w c = some (r, w')) :
    Settled w' ∧ Gone s w' := by
  obtain ⟨hsound, rfl⟩ := sound_clearPointer hw.sound hw.2 hnumber hact
  have hbusy : Busy s (w.setHandle s none) :=
    hw.1.step hsound (fun s' hs => handles_setHandle_of_ne w hs _) [] rfl nofun
  exact ⟨hbusy.settled fun h' hh' => by simp at hh', hw.sound.lt_sexps hw.2, by simp⟩

/-- A finalized object has no handle. -/
theorem finalizer_ensures (s : Sexp) :
    Ensures World.move Sound Settled (finalizer s) (fun _ w => Settled w ∧ Gone s w) := by
  refine current_ensures ?_ fun h => ?_
  · exact (gone_ensures ()).conseq (fun _ hw => hw) fun _ w hw => ⟨hw.1, hw.2.1⟩
  · refine .conseq (R := At s h) (.bind (terminateIfNeeded_ensures h) (fun _ => ?_) ?_)
      (fun w hw => ⟨hw.toSettled.busy s, hw.handle⟩) fun _ _ hq => hq
    · refine .bind (closeIfOpen_ensures.conseq (fun w hw => hw.2) fun _ _ hq => hq) (fun _ => ?_) ?_
      · refine .conseq (R := fun w => ∃ h, At s h w ∧ h.hProcess = none) ?_ (fun w hw => hw.2)
          fun _ _ hq => hq
        refine .act (kept_inHand _) (fun _ w => Settled w ∧ Gone s w)
          (fun w c r w' ⟨h, hw, hnumber⟩ hact => clearPointer_settled hw hnumber hact) fun _ => ?_
        exact .ret (kept_gone s) fun _ hw => hw
      · rintro e w ⟨heq, -⟩
        cases heq
    · rintro e w ⟨heq, -⟩
      cases heq

/-- Finalizers lead from one moment between calls to another. -/
theorem runFinalizers_ensures (dead : List Sexp) :
    Ensures World.move Sound Settled (runFinalizers dead) (fun _ => Settled) := by
  induction dead with
  | nil => exact .ret kept_settled fun _ hw => hw
  | cons s dead ih =>
    exact .bind ((finalizer_ensures s).conseq (fun _ hw => hw) fun _ _ hw => hw.1) (fun _ => ih)
      fun _ _ hw => hw

/-- A new object without a process. -/
structure Unborn (s : Sexp) (w : World) : Prop extends Settled w where
  handle : ∃ cleanup, w.handles s = some { cleanup := cleanup }
  unstarted : ∀ pid, .started s pid ∉ w.log
  attempts : attempts s w.log = []

/-- A new object stays without a process while others end. -/
theorem kept_unborn : Kept World.move Sound (Unborn s) := by
  refine Stable.kept (fun w w' hw hm => ?_) fun w hw => hw.toSound
  refine ⟨stable_settled w w' hw.toSettled hm, ?_, ?_, ?_⟩
  · rw [hm.handles]
    exact hw.handle
  · rw [hm.log]
    exact hw.unstarted
  · rw [hm.log]
    exact hw.attempts

/-- A new handle leads to a later state. -/
theorem makeHandle_later {cleanup : Bool} {w w' : World} {c : Choice} {r : Option Sexp}
    (hact : makeHandle cleanup w c = some (r, w')) : Later w w' := by
  rcases makeHandle_spec hact with ⟨-, rfl⟩ | ⟨-, hhandles, hprocs, -, hsexps, hlog⟩
  · exact .refl w'
  · refine ⟨⟨[], hlog⟩, fun pid h => by rwa [hprocs], fun pid c h => ?_,
      fun pid c t h => by rwa [hprocs], by omega, fun s hs hnone => ?_⟩
    · unfold EndsWith at h ⊢
      rwa [hprocs]
    · rw [hhandles, handles_setHandle_of_ne w (Nat.ne_of_lt hs)]
      exact hnone

/-- It is one of a new object without a process. -/
theorem makeHandle_unborn {cleanup : Bool} {w w' : World} {c : Choice} {r : Option Sexp}
    (hw : Settled w) (hact : makeHandle cleanup w c = some (r, w')) :
    Settled w' ∧ ∀ s, r = some s → Unborn s w' := by
  have hlater := makeHandle_later hact
  rcases makeHandle_spec hact with ⟨rfl, rfl⟩ | ⟨rfl, hhandles, hprocs, htable, hsexps, hlog⟩
  · exact ⟨hw, nofun⟩
  have hnew : ∀ s h, w'.handles s = some h →
      (s = w.sexps ∧ h = { cleanup := cleanup }) ∨ (s ≠ w.sexps ∧ w.handles s = some h) := by
    intro s h hh
    rw [hhandles] at hh
    by_cases heq : s = w.sexps
    · subst heq
      rw [handles_setHandle_self] at hh
      exact Or.inl ⟨rfl, (Option.some.inj hh).symm⟩
    · rw [handles_setHandle_of_ne w heq] at hh
      exact Or.inr ⟨heq, hh⟩
  have hunstarted : ∀ pid, Event.started w.sexps pid ∉ w'.log := by
    intro pid hs
    rw [hlog] at hs
    exact Nat.lt_irrefl _ (hw.known _ pid hs).1
  have hsettled : Settled w' := by
    refine ⟨⟨fun s h hh => ?_, fun s hs => ?_, fun s hs => ?_, fun n pid hn => ?_,
      fun s pid hs => ?_, fun s s' pid pid' hs hs' => ?_, fun s n before hc => ?_⟩,
      fun s h hh => ?_⟩
    · rcases hnew s h hh with ⟨rfl, rfl⟩ | ⟨-, hold⟩
      · exact ⟨nofun, fun hb => by simp at hb, nofun, fun ht => by simp at ht⟩
      · exact (hw.handles s h hold).later hlater fun n _ => by rw [htable]
    · rw [hsexps] at hs
      rw [hhandles, handles_setHandle_of_ne w (Nat.ne_of_gt hs)]
      exact hw.fresh s (Nat.le_of_succ_le hs)
    · rw [hsexps] at hs
      rw [hlog]
      exact hw.untried s (Nat.le_of_succ_le hs)
    · rw [htable] at hn
      obtain ⟨s, h, hh, hn'⟩ := hw.owner n pid hn
      refine ⟨s, h, ?_, hn'⟩
      rw [hhandles, handles_setHandle_of_ne w (Nat.ne_of_lt (hw.toSound.lt_sexps hh))]
      exact hh
    · rw [hlog] at hs
      obtain ⟨hlt, hknown⟩ := hw.known s pid hs
      exact ⟨hlt.trans_le hlater.sexps, hlater.known pid hknown⟩
    · rw [hlog] at hs hs'
      exact hw.one s s' pid pid' hs hs'
    · rw [hlog] at hc ⊢
      exact hw.closes s n before hc
    · rcases hnew s h hh with ⟨rfl, rfl⟩ | ⟨-, hold⟩
      · exact .unborn rfl rfl hunstarted (by rw [hlog]; exact hw.untried _ le_rfl)
      · rw [hlog]
        exact hw.phase s h hold
  refine ⟨hsettled, fun s hs => ?_⟩
  obtain rfl := Option.some.inj hs
  exact ⟨hsettled, ⟨cleanup, by rw [hhandles, handles_setHandle_self]⟩, hunstarted,
    by rw [hlog]; exact hw.untried _ le_rfl⟩

/-- A new process leads to a later state. -/
theorem createProcess_later {w w' : World} {c : Choice} {r : Bool}
    (hact : createProcess s w c = some (r, w')) : Later w w' := by
  rcases createProcess_spec hact with rfl |
    ⟨h, number, pid, hhandle, htable, hproc, hhandles, hprocs, htable', hsexps, hlog⟩
  · exact .refl w'
  · have hother : ∀ n, w.procs n ≠ none → w'.procs n = w.procs n := by
      intro n hn
      rw [hprocs]
      refine if_neg ?_
      rintro rfl
      exact hn hproc
    refine ⟨⟨[_], hlog⟩, fun n hn => by rwa [hother n hn], fun n c hc => ?_, fun n c t hc => ?_,
      hsexps.ge, fun s' _ hs' => ?_⟩
    · have hn : w.procs n ≠ none := by
        rcases hc with hc | ⟨t, hc⟩ <;> rw [hc] <;> nofun
      unfold EndsWith at hc ⊢
      rwa [hother n hn]
    · rwa [hother n (by rw [hc]; nofun)]
    · rw [hhandles]
      exact setHandle_none hhandle _ hs'

/-- A process is started for a new object. -/
theorem createProcess_settled {w w' : World} {c : Choice} {r : Bool} (hw : Unborn s w)
    (hact : createProcess s w c = some (r, w')) : Settled w' := by
  have hlater := createProcess_later hact
  rcases createProcess_spec hact with rfl |
    ⟨h, number, pid, hhandle, htable, hproc, hhandles, hprocs, htable', hsexps, hlog⟩
  · exact hw.toSettled
  obtain ⟨cleanup, hclean⟩ := hw.handle
  obtain rfl := Option.some.inj (hclean.symm.trans hhandle)
  have hlt := hw.toSound.lt_sexps hhandle
  have hnew : ∀ s' h, w'.handles s' = some h →
      (s' = s ∧ h = { cleanup := cleanup, hProcess := some number, dwProcessId := pid }) ∨
        (s' ≠ s ∧ w.handles s' = some h) := by
    intro s' h hh
    rw [hhandles] at hh
    by_cases heq : s' = s
    · subst heq
      rw [handles_setHandle_self] at hh
      exact Or.inl ⟨rfl, (Option.some.inj hh).symm⟩
    · rw [handles_setHandle_of_ne w heq] at hh
      exact Or.inr ⟨heq, hh⟩
  have hstarted : ∀ s' pid', Event.started s' pid' ∈ w'.log →
      (s' = s ∧ pid' = pid) ∨ (s' ≠ s ∧ pid' ≠ pid ∧ .started s' pid' ∈ w.log) := by
    intro s' pid' hs
    rw [hlog] at hs
    rcases List.mem_cons.mp hs with heq | hold
    · exact Or.inl (Event.started.inj heq)
    · refine Or.inr ⟨?_, ?_, hold⟩
      · rintro rfl
        exact hw.unstarted pid' hold
      · rintro rfl
        exact (hw.known s' pid' hold).2 hproc
  refine ⟨⟨fun s' h hh => ?_, fun s' hs => ?_, fun s' hs => ?_, fun n pid' hn => ?_,
    fun s' pid' hs => ?_, fun s₁ s₂ pid₁ pid₂ hs₁ hs₂ => ?_, fun s' n before hc => ?_⟩,
    fun s' h hh => ?_⟩
  · rcases hnew s' h hh with ⟨rfl, rfl⟩ | ⟨hne, hold⟩
    · refine ⟨fun n hn => ?_, fun _ => ?_, fun hc => by simp at hc, fun ht => by simp at ht⟩
      · obtain rfl := Option.some.inj hn
        rw [htable']
        exact if_pos rfl
      · rw [hlog]
        exact List.mem_cons_self
    · refine (hw.handles s' h hold).later hlater fun n hn => ?_
      rw [htable']
      refine if_neg fun heq => ?_
      have hentry := (hw.handles s' h hold).entry n hn
      rw [heq, htable] at hentry
      cases hentry
  · rw [hsexps] at hs
    rw [hhandles]
    exact setHandle_none hhandle _ (hw.fresh s' hs)
  · rw [hlog, attempts_started]
    exact hw.untried s' (hsexps ▸ hs)
  · rw [hhandles]
    by_cases heq : n = number
    · exact ⟨s, _, handles_setHandle_self w s _, congrArg some heq.symm⟩
    · rw [htable'] at hn
      obtain ⟨s', h, hh, hn'⟩ := hw.owner n pid' (by simpa [World.setEntry, heq] using hn)
      have hne : s' ≠ s := by
        rintro rfl
        rw [hhandle] at hh
        rw [← Option.some.inj hh] at hn'
        cases hn'
      exact ⟨s', h, (handles_setHandle_of_ne w hne _).trans hh, hn'⟩
  · rcases hstarted s' pid' hs with ⟨rfl, rfl⟩ | ⟨-, -, hold⟩
    · refine ⟨hsexps ▸ hlt, ?_⟩
      rw [hprocs]
      simp [World.setProc]
    · obtain ⟨hlt', hknown⟩ := hw.known s' pid' hold
      exact ⟨hsexps ▸ hlt', hlater.known pid' hknown⟩
  · rcases hstarted s₁ pid₁ hs₁ with ⟨rfl, rfl⟩ | ⟨hne₁, hpid₁, hold₁⟩ <;>
      rcases hstarted s₂ pid₂ hs₂ with ⟨rfl, rfl⟩ | ⟨hne₂, hpid₂, hold₂⟩
    · exact iff_of_true rfl rfl
    · exact iff_of_false hne₂.symm hpid₂.symm
    · exact iff_of_false hne₁ hpid₁
    · exact hw.one s₁ s₂ pid₁ pid₂ hold₁ hold₂
  · rw [hlog] at hc
    rcases hw.closes s' n before (by simpa using hc) with hnone | ⟨pid', hbefore, hs⟩
    · exact Or.inl hnone
    · exact Or.inr ⟨pid', hbefore, hlater.mem hs⟩
  · rcases hnew s' h hh with ⟨rfl, rfl⟩ | ⟨hne, hold⟩
    · refine .live (by simp) ?_
      rw [hlog, attempts_started]
      exact hw.attempts
    · rw [hlog]
      exact (hw.phase s' h hold).cons (Ne.symm hne)

/-- `processx_exec()` leads from one moment between calls to another. -/
theorem processxExec_ensures (cleanup : Bool) :
    Ensures World.move Sound Settled (processxExec cleanup) (fun _ => Settled) := by
  have hsys : ∀ (P : World → Prop) (f : Bool → Call Sexp), Kept World.move Sound P →
      (∀ r, Ensures World.move Sound P (f r) (fun _ => Settled)) →
      Ensures World.move Sound P (Prog.lift sysCall >>= f) (fun _ => Settled) := by
    intro P f hP hf
    refine .step hP (fun _ => P) (fun w c r w' hw hact => ?_) hf
    rwa [sysCall_spec hact]
  refine hsys _ _ kept_settled fun prepared => ?_
  split_ifs
  · exact .throw kept_settled fun _ hw => hw
  refine .step kept_settled (fun r w => Settled w ∧ ∀ s, r = some s → Unborn s w)
    (fun w c r w' hw hact => makeHandle_unborn hw hact) fun result => ?_
  cases result with
  | none =>
    exact (Ensures.throw kept_settled fun _ hw => hw).conseq (fun _ hw => hw.1) fun _ _ hq => hq
  | some s =>
    refine .conseq (R := Unborn s) (hsys _ _ kept_unborn fun found => ?_)
      (fun _ hw => hw.2 s rfl) fun _ _ hq => hq
    split_ifs
    · refine .step kept_unborn (fun _ => Settled) (fun w c r w' hw hact => ?_) fun _ => ?_
      · obtain ⟨cleanup', hhandle⟩ := hw.handle
        exact (clearPointer_settled ⟨hw.toSettled.busy s, hhandle⟩ rfl hact).1
      · exact .throw kept_settled fun _ hw => hw
    refine hsys _ _ kept_unborn fun streams => ?_
    split_ifs
    · exact .throw kept_unborn fun _ hw => hw.toSettled
    refine .step kept_unborn (fun _ => Settled)
      (fun w c r w' hw hact => createProcess_settled hw hact) fun created => ?_
    split_ifs
    · exact .throw kept_settled fun _ hw => hw
    have hresume : Ensures World.move Sound Settled (assignJob cleanup) (fun _ => Settled) := by
      rw [assignJob]
      split_ifs
      · refine .act kept_settled (fun _ => Settled) (fun w c r w' hw hact => ?_) fun _ => ?_
        · rwa [sysCall_spec hact]
        · exact .ret kept_settled fun _ hw => hw
      · exact .ret kept_settled fun _ hw => hw
    refine .bind hresume (fun assigned => ?_) fun _ _ hw => hw
    split_ifs
    · exact .throw kept_settled fun _ hw => hw
    · refine hsys _ _ kept_settled fun resumed => ?_
      split_ifs
      · exact .throw kept_settled fun _ hw => hw
      · exact .ret kept_settled fun _ hw => hw

end Objects

end Processx.Win.Process
