import Processx.Unix.Session

/-!
# The numbers of a wait

While a wait polls, its handle holds the numbers of the two ends of its pipe, and the SIGCHLD
handler closes the second one. The exit callback works on a copy. So the handle has to forget the
numbers however the wait is left; a wait that is interrupted, or whose `poll()` fails, skips the
place where it does.
-/

namespace Processx

open Interruptible

/-- The handle of `s`, if there is one, holds no number of a wait pipe. -/
def NumbersCleared (s : Sexp) (w : World) : Prop :=
  ∀ h, w.handles s = some h → h.waitpipe0 = none ∧ h.waitpipe1 = none

/-- A handle that does not hold a first number does not hold a second one. -/
def Numbered (w : World) : Prop :=
  ∀ s h, w.handles s = some h → h.waitpipe0 = none → h.waitpipe1 = none

/-- The first number that the handle of `s` holds. -/
def World.firstNumber (w : World) (s : Sexp) : Option ℕ := (w.handles s).bind Handle.waitpipe0

/-- The first number decides. -/
theorem Numbered.cleared_iff {w : World} (h : Numbered w) (s : Sexp) :
    NumbersCleared s w ↔ w.firstNumber s = none := by
  unfold World.firstNumber
  constructor
  · intro hcleared
    cases hh : w.handles s with
    | none => rfl
    | some handle => exact (hcleared handle hh).1
  · intro hnone handle hh
    rw [hh] at hnone
    exact ⟨hnone, h s handle hh hnone⟩

/-- A step that makes no pipe, keeps the first numbers, and at most forgets second ones. -/
structure NumbersKept (w w' : World) : Prop where
  waitPipes : w'.waitPipes = w.waitPipes
  first : ∀ s, (w'.handles s).map Handle.waitpipe0 = (w.handles s).map Handle.waitpipe0
  second : ∀ s h', w'.handles s = some h' →
    ∃ h, w.handles s = some h ∧ (h'.waitpipe1 = h.waitpipe1 ∨ h'.waitpipe1 = none)

/-- A step that leaves the handles alone. -/
theorem NumbersKept.of_eq {w w' : World} (hhandles : w'.handles = w.handles)
    (hpipes : w'.waitPipes = w.waitPipes) : NumbersKept w w' :=
  ⟨hpipes, fun s => by rw [hhandles], fun s h' hh' => ⟨h', hhandles ▸ hh', Or.inl rfl⟩⟩

/-- One step that keeps the numbers after another. -/
theorem NumbersKept.trans {w₁ w₂ w₃ : World} (h₁ : NumbersKept w₁ w₂) (h₂ : NumbersKept w₂ w₃) :
    NumbersKept w₁ w₃ where
  waitPipes := h₂.waitPipes.trans h₁.waitPipes
  first s := (h₂.first s).trans (h₁.first s)
  second s h₃ hh₃ := by
    obtain ⟨h, hh, hsecond⟩ := h₂.second s h₃ hh₃
    obtain ⟨h', hh', hsecond'⟩ := h₁.second s h hh
    refine ⟨h', hh', ?_⟩
    rcases hsecond with heq | hnone
    · rw [heq]
      exact hsecond'
    · exact Or.inr hnone

/-- Changing one handle. -/
theorem NumbersKept.setHandle {w : World} {s : Sexp} {h h' : Handle} (hh : w.handles s = some h)
    (hfirst : h'.waitpipe0 = h.waitpipe0)
    (hsecond : h'.waitpipe1 = h.waitpipe1 ∨ h'.waitpipe1 = none) :
    NumbersKept w (w.setHandle s (some h')) where
  waitPipes := rfl
  first s' := by
    by_cases hs : s' = s
    · subst hs
      rw [hh]
      simp [World.setHandle, hfirst]
    · simp [World.setHandle, hs]
  second s' h₁ hh₁ := by
    by_cases hs : s' = s
    · subst hs
      obtain rfl : h' = h₁ := by simpa [World.setHandle] using hh₁
      exact ⟨h, hh, hsecond⟩
    · exact ⟨h₁, by simpa [World.setHandle, hs] using hh₁, Or.inl rfl⟩

/-- What is known of the numbers stays. -/
theorem Numbered.kept {w w' : World} (h : Numbered w) (hkept : NumbersKept w w') :
    Numbered w' := by
  intro s h' hh' hnone
  obtain ⟨handle, hh, hsecond⟩ := hkept.second s h' hh'
  have hfirst := hkept.first s
  rw [hh', hh] at hfirst
  have hzero : handle.waitpipe0 = none := (Option.some.inj hfirst).symm.trans hnone
  rcases hsecond with heq | hgone
  · rw [heq]
    exact h s handle hh hzero
  · exact hgone

/-- The number of the read end in a handle stays. -/
theorem NumbersKept.firstNumber {w w' : World} (hkept : NumbersKept w w') (s : Sexp) :
    w'.firstNumber s = w.firstNumber s := by
  have hfirst := hkept.first s
  unfold World.firstNumber
  cases hh : w.handles s with
  | none =>
    rw [hh] at hfirst
    rw [Option.map_eq_none_iff.mp hfirst]
  | some h =>
    rw [hh] at hfirst
    obtain ⟨h', hh', heq⟩ := Option.map_eq_some_iff.mp hfirst
    rw [hh']
    exact heq

/-- Storing a status keeps the numbers. -/
theorem numbersKept_collectExitStatus (w : World) (s : Sexp) (wp : WaitResult) :
    NumbersKept w (w.collectExitStatus s wp) := by
  have hcollect : ∀ h : Handle, (h.collect wp).waitpipe0 = h.waitpipe0 ∧
      (h.collect wp).waitpipe1 = h.waitpipe1 := by
    intro h
    unfold Handle.collect
    split <;> exact ⟨rfl, rfl⟩
  have hset : NumbersKept w (w.setHandle s ((w.handles s).map (·.collect wp))) := by
    cases hh : w.handles s with
    | none =>
      refine .of_eq ?_ rfl
      funext s'
      by_cases hs : s' = s
      · simp [World.setHandle, hs, hh]
      · simp [World.setHandle, hs]
    | some h => exact .setHandle hh (hcollect h).1 (Or.inl (hcollect h).2)
  obtain ⟨_, heq⟩ | ⟨fd, _, heq⟩ := collectExitStatus_cases w s wp
  · rw [heq]
    exact hset
  · rw [heq]
    exact hset.trans (.of_eq rfl rfl)

/-- A `waitpid()` keeps the numbers. -/
theorem numbersKept_waitNohang {w w₁ : World} {pid : ℕ} {wp : WaitResult}
    (h : w.waitNohang pid = (wp, w₁)) : NumbersKept w w₁ := by
  obtain rfl | ⟨p, rfl⟩ := waitNohang_eq_setProc h
  · exact .of_eq rfl rfl
  · exact .of_eq rfl rfl

/-- The handler forgets the second number of a child that has exited. -/
theorem numbersKept_childExited (w : World) (node : Node) (wp : WaitResult) :
    NumbersKept w (w.childExited node wp) := by
  have hcollect := numbersKept_collectExitStatus w node.status wp
  obtain ⟨_, heq⟩ | ⟨h, _, _, heq⟩ | ⟨h, fd, hnode, _, heq⟩ := childExited_cases w node wp
  · rw [heq]
    exact .of_eq rfl rfl
  · rw [heq]
    exact hcollect.trans (.of_eq rfl rfl)
  · have hstored : (w.collectExitStatus node.status wp).handles node.status =
        some (h.collect wp) := by
      rw [handles_collectExitStatus, if_pos rfl, handles_of_nodeHandle hnode]
      rfl
    have hforget : ∀ w₁ : World, w₁.handles node.status = some (h.collect wp) →
        NumbersKept w₁ (w₁.setHandle node.status (some { h.collect wp with waitpipe1 := none })) :=
      fun w₁ hh => .setHandle hh rfl (Or.inr rfl)
    rw [heq]
    refine hcollect.trans (NumbersKept.trans ?_ (hforget _ ?_))
    · exact .of_eq rfl rfl
    · exact hstored

/-- Nothing outside of the main program makes a pipe or changes a first number. -/
theorem numbersKept_move {w w' : World} {m : Move} (hmove : w.move m = some w') :
    NumbersKept w w' := by
  refine move_keeps (P := NumbersKept w) ?_ ?_ ?_ ?_ w m w' (.of_eq rfl rfl) hmove
  · exact fun w₁ pid stat h _ => h.trans (.of_eq rfl rfl)
  · exact fun w₁ h _ _ => h.trans (.of_eq rfl rfl)
  · exact fun w₁ node wp w₂ h _ hwait _ =>
      (h.trans (numbersKept_waitNohang hwait)).trans (numbersKept_childExited w₂ node wp)
  · exact fun w₁ kept h _ => h.trans (.of_eq rfl rfl)

/-- A handler that finds no second number closes no descriptor of a wait. -/
theorem NumbersCleared.childExited {w : World} {node : Node} (h : NumbersCleared node.status w)
    (wp : WaitResult) : ∀ fd before, .close .handler fd before ∈ (w.childExited node wp).log →
      .close .handler fd before ∈ w.log := by
  intro fd before hmem
  have hcollect : .close .handler fd before ∈ (w.collectExitStatus node.status wp).log →
      .close .handler fd before ∈ w.log := by
    obtain heq | ⟨fd', before', heq⟩ := log_collectExitStatus w node.status wp
    · rw [heq]
      exact id
    · rw [heq]
      intro hcons
      rcases List.mem_cons.mp hcons with hpty | hold
      · cases hpty
      · exact hold
  obtain ⟨_, heq⟩ | ⟨handle, _, _, heq⟩ | ⟨handle, fd', hnode, hsecond, heq⟩ :=
    childExited_cases w node wp
  · rw [heq] at hmem
    exact hmem
  · rw [heq] at hmem
    exact hcollect hmem
  · have hnone := (h handle (handles_of_nodeHandle hnode)).2
    rw [hsecond] at hnone
    cases hnone

variable {α ρ : Type}

/-- An action that keeps the numbers in order. -/
def NumbersAct (a : Act ρ) : Prop :=
  ∀ w c r w', Numbered w → a w c = some (r, w') → Numbered w'

/-- A handle forgets the two numbers together, or the second one only. -/
theorem handleRule_numbered : HandleRule fun h => h.waitpipe0 = none → h.waitpipe1 = none where
  new _ _ _ := rfl
  collect h wp hh := by
    unfold Handle.collect
    split
    · exact hh
    · exact hh
  makePipe _ _ _ _ hnone := by cases hnone
  clearPipe _ _ _ := rfl
  closeWrite _ _ _ := rfl
  setPty _ _ hh := hh
  setPid _ _ hh := hh

/-- Notes keep the numbers. -/
theorem numbersKept_of_notes {w w' : World} (h : Notes w w') : NumbersKept w w' :=
  .of_eq h.handles h.waitPipes

/-- So does a signal. -/
theorem numbersKept_kill {site : KillSite} {s : Sexp} {target : ℤ} {sig : ℕ} {w w' : World}
    {c : Choice} {r : KillResult} (h : kill site s target sig w c = some (r, w')) :
    NumbersKept w w' := by
  obtain rfl := kill_eq_record h
  exact .of_eq rfl rfl

/-- So does taking off the exits of a context. -/
theorem numbersKept_callOnExit {w w' : World} {c : Choice} {registered : Bool}
    (h : callOnExit w c = some (registered, w')) : NumbersKept w w' := by
  obtain ⟨_, rfl⟩ | ⟨frame, frames, _, _, rfl⟩ := callOnExit_cases h
  · exact .of_eq rfl rfl
  · exact .of_eq rfl rfl

/-- So does putting a wait pipe on the context. -/
theorem numbersKept_saveWaitpipe {r wr : ℕ} {w w' : World} {c : Choice} {u : Unit}
    (h : saveWaitpipe r wr w c = some (u, w')) : NumbersKept w w' := by
  unfold saveWaitpipe at h
  split at h
  · cases h
    exact .of_eq rfl rfl
  · cases h
    exact .of_eq rfl rfl

/-- All that the package does keeps the numbers in order. -/
theorem allowsAll_numbersAct : AllowsAll NumbersAct := handleRule_numbered.allowsAll

/-- So does the exit of a child, whose handler writes to the pipe and clears it. -/
theorem kept_numbered : Kept World.move Numbered Numbered := handleRule_numbered.kept

/-- At any moment of any run. -/
theorem runSystem_numbered (rounds : ℕ) (calls : List SystemCall) {w w' : World}
    {o : Option (Except String Unit)} (hw : Numbered w)
    (hrun : Runs World.move (runSystem rounds calls) w o w') : Numbered w' := by
  refine (runSystem_keeps kept_numbered rounds (fun call => ?_) calls w o w' hw hrun).1
  refine Ensures.each kept_numbered ((systemCall_each allowsAll_numbersAct rounds call).mono ?_)
  exact fun a ha w c r w' hw h => ha w c r w' hw h

/-- The two exits of a wait that skip its clean-up: `R_CheckUserInterrupt()` does not return, or
`poll()` fails. -/
def LeavesPolling (result : Except String Bool) : Prop :=
  result = .error "interrupt" ∨
    result = .error "processx wait with timeout error while waiting"

/-- The numbers are in order, `pipes` pipes have been made, and the handle of `s` holds the first
number `first`. -/
structure Holding (s : Sexp) (pipes : ℕ) (first : Option ℕ) (w : World) : Prop where
  numbered : Numbered w
  waitPipes : w.waitPipes = pipes
  firstNumber : w.firstNumber s = first

/-- A wait that holds its pipe goes on to do so. -/
theorem Holding.kept {s : Sexp} {pipes : ℕ} {first : Option ℕ} {w w' : World}
    (h : Holding s pipes first w) (hkept : NumbersKept w w') : Holding s pipes first w' :=
  ⟨h.numbered.kept hkept, hkept.waitPipes.trans h.waitPipes,
    (hkept.firstNumber s).trans h.firstNumber⟩

/-- So it does when the child exits. -/
theorem kept_holding (s : Sexp) (pipes : ℕ) (first : Option ℕ) :
    Kept World.move Numbered (Holding s pipes first) where
  move _ _ _ hw hmove := hw.kept (numbersKept_move hmove)
  safe _ h := h.numbered

/-- How a wait ends that began with `pipes` pipes and the number `first`: it has made no pipe and
changed nothing, or it has made one, and has forgotten it unless it left the polling. -/
def NumbersAfter (s : Sexp) (pipes : ℕ) (first : Option ℕ) (result : Except String Bool)
    (w : World) : Prop :=
  Holding s pipes first w ∧ ¬LeavesPolling result ∨
    ∃ number, Holding s (pipes + 1) number w ∧ (number = none ↔ ¬LeavesPolling result)

/-- Programs in which the numbers stay in order. -/
abbrev Numbers (P : World → Prop) (p : Call α) (Q : Except String α → World → Prop) : Prop :=
  Ensures World.move Numbered P p Q

/-- A step that keeps the numbers. -/
theorem Numbers.step {s : Sexp} {pipes : ℕ} {first : Option ℕ} {a : Act ρ} {f : ρ → Call α}
    {Q : Except String α → World → Prop} (ha : ∀ w c r w', a w c = some (r, w') → NumbersKept w w')
    (hf : ∀ r, Numbers (Holding s pipes first) (f r) Q) :
    Numbers (Holding s pipes first) (Prog.lift a >>= f) Q :=
  Ensures.step (kept_holding s pipes first) (fun _ => Holding s pipes first)
    (fun w c r w' hw h => hw.kept (ha w c r w' h)) hf

/-- Such a step is a note. -/
theorem Numbers.note {s : Sexp} {pipes : ℕ} {first : Option ℕ} {a : Act ρ} (ha : NoteAct a)
    {f : ρ → Call α} {Q : Except String α → World → Prop}
    (hf : ∀ r, Numbers (Holding s pipes first) (f r) Q) :
    Numbers (Holding s pipes first) (Prog.lift a >>= f) Q :=
  Numbers.step (fun w c r w' h => numbersKept_of_notes (ha w c r w' h)) hf

/-- The polling keeps the numbers. It throws only when it is interrupted. -/
theorem pollLoop_numbers (s : Sexp) (pid r wr pipe : ℕ) (timeout : ℤ) (pipes : ℕ)
    (first : Option ℕ) (rounds : ℕ) (timeleft : ℤ) :
    Numbers (Holding s pipes first) (pollLoop s pid r wr pipe timeout rounds timeleft)
      (fun answer w =>
        Holding s pipes first w ∧ ∀ msg, answer = .error msg → msg = "interrupt") := by
  have hkept := kept_holding s pipes first
  induction rounds generalizing timeleft with
  | zero => exact .spin hkept
  | succ rounds ih =>
    rw [pollLoop]
    split
    · refine Numbers.note (noteAct_poll s r wr pipe) fun answer => ?_
      split
      · exact .ret hkept fun w hw => ⟨hw, fun msg hmsg => by cases hmsg⟩
      · refine Numbers.note noteAct_checkUserInterrupt fun interrupted => ?_
        cases interrupted with
        | true => exact .throw hkept fun w hw => ⟨hw, fun msg hmsg => (Except.error.inj hmsg).symm⟩
        | false =>
          refine Numbers.step (fun _ _ _ _ h => numbersKept_kill h) fun alive => ?_
          dsimp only
          split
          · exact .ret hkept fun w hw => ⟨hw, fun msg hmsg => by cases hmsg⟩
          · exact ih _
    · split
      · refine Numbers.note (noteAct_poll s r wr pipe) fun answer => ?_
        exact .ret hkept fun w hw => ⟨hw, fun msg hmsg => by cases hmsg⟩
      · exact .ret hkept fun w hw => ⟨hw, fun msg hmsg => by cases hmsg⟩

/-- The end of a wait forgets the numbers, unless the poll has failed. -/
theorem endWait_numbers (s : Sexp) (pid : ℕ) (old : Bool) (answer : PollAnswer) (pipes number : ℕ) :
    Numbers (Holding s (pipes + 1) (some number)) (endWait s pid old answer)
      (fun result w => ∃ number, Holding s (pipes + 1) number w ∧
        (number = none ↔ ¬LeavesPolling result)) := by
  rw [endWait]
  split
  · refine .throw (kept_holding s _ _) fun w hw => ⟨_, hw, iff_of_false ?_ ?_⟩
    · exact fun h => by cases h
    · exact fun h => h (Or.inr rfl)
  · refine Ensures.step (kept_holding s _ _) (fun _ => Holding s (pipes + 1) none) ?_ fun _ => ?_
    · rintro w c r w' hw ⟨⟩
      refine ⟨allowsAll_numbersAct.clearWaitpipe s w c () _ hw.numbered rfl, hw.waitPipes, ?_⟩
      unfold World.firstNumber
      simp only [World.setHandle, if_true]
      cases w.handles s <;> rfl
    · refine Numbers.note (noteAct_restoreMask old answer pid) fun _ => ?_
      refine .ret (kept_holding s _ _) fun w hw => ⟨none, hw, iff_of_true rfl ?_⟩
      rintro (h | h)
      · cases h
      · cases h

/-- A wait. -/
theorem cProcessxWait_numbers (rounds : ℕ) (s : Sexp) (timeout : ℤ) (pipes : ℕ)
    (first : Option ℕ) :
    Numbers (Holding s pipes first) (cProcessxWait rounds s timeout)
      (NumbersAfter s pipes first) := by
  have hkept := kept_holding s pipes first
  have hreturn : Numbers (Holding s pipes first) (.ret true : Call Bool)
      (NumbersAfter s pipes first) := by
    refine .ret hkept fun w hw => Or.inl ⟨hw, ?_⟩
    rintro (h | h)
    · cases h
    · cases h
  have hthrow : ∀ msg, msg ≠ "interrupt" →
      msg ≠ "processx wait with timeout error while waiting" →
      Numbers (Holding s pipes first) (.throw msg : Call Bool) (NumbersAfter s pipes first) := by
    refine fun msg hinterrupt hpoll => .throw hkept fun w hw => Or.inl ⟨hw, ?_⟩
    rintro (h | h)
    · exact hinterrupt (Except.error.inj h)
    · exact hpoll (Except.error.inj h)
  refine Numbers.step (fun _ _ _ _ h => numbersKept_callOnExit h) fun registered => ?_
  cases registered with
  | false => exact hthrow _ (by decide) (by decide)
  | true =>
    refine Numbers.note noteAct_blockSigchld fun old => ?_
    refine Numbers.note (noteAct_readHandle s) fun handle => ?_
    cases handle with
    | none => exact Numbers.note (noteAct_procmaskSet old) fun _ => hreturn
    | some h =>
      dsimp only
      split
      · exact Numbers.note (noteAct_procmaskSet old) fun _ => hreturn
      · refine Numbers.note noteAct_setupSigchld fun _ => ?_
        refine Numbers.note noteAct_blockSigchld fun _ => ?_
        refine Ensures.step hkept (fun made => made.elim (Holding s pipes first)
          fun ends => Holding s (pipes + 1) (some ends.1)) ?_ fun made => ?_
        · intro w c made w' hw hmake
          have hnumbered := allowsAll_numbersAct.makeWaitpipe s w c made w' hw.numbered hmake
          obtain ⟨rfl, rfl⟩ | ⟨r, wr, handle, rfl, _, _, _, _, rfl⟩ := makeWaitpipe_cases hmake
          · exact hw
          · refine ⟨hnumbered, congrArg (· + 1) hw.waitPipes, ?_⟩
            simp [World.firstNumber, World.withWaitpipe, World.setHandle]
        cases made with
        | none =>
          refine Numbers.note (noteAct_restoreAfterFailure old) fun _ => ?_
          exact hthrow _ (by decide) (by decide)
        | some ends =>
          obtain ⟨r, wr, pipe⟩ := ends
          refine Numbers.step (fun _ _ _ _ h => numbersKept_saveWaitpipe h) fun _ => ?_
          refine Numbers.note noteAct_unblockSigchld fun _ => ?_
          refine Ensures.bind (pollLoop_numbers s h.pid r wr pipe timeout (pipes + 1) (some r)
            rounds timeout) (fun answer => ?_) fun msg w hw => ?_
          · refine (endWait_numbers s h.pid old answer pipes r).conseq (fun w hw => hw.1) ?_
            exact fun result w hw => Or.inr hw
          · refine Or.inr ⟨_, hw.1, iff_of_false ?_ ?_⟩
            · exact fun h => by cases h
            · exact fun h => h (Or.inl (congrArg _ (hw.2 msg rfl)))

/-- **The numbers.** However a wait is left, in whatever state of a run it was called, its handle
holds no number of a wait pipe afterwards if and only if the wait was not left out of its polling
by an interrupt or a failing `poll()`, and, if it made no pipe, the handle held none before. And
then the handler closes nothing for the handle. -/
theorem wait_clears_numbers_iff (rounds : ℕ) (calls : List SystemCall) (s : Sexp) (timeout : ℤ)
    {w₀ w w' : World} {o : Option (Except String Unit)} {result : Except String Bool}
    (hstart : ∀ s, w₀.handles s = none)
    (hsession : Runs World.move (runSystem rounds calls) w₀ o w)
    (hrun : Runs World.move (cProcessxWait rounds s timeout) w (some result) w') :
    (NumbersCleared s w' ↔
      ¬LeavesPolling result ∧ (w'.waitPipes = w.waitPipes → NumbersCleared s w)) ∧
    (NumbersCleared s w' → ∀ node wp, node.status = s → ∀ fd before,
      .close .handler fd before ∈ (w'.childExited node wp).log →
        .close .handler fd before ∈ w'.log) := by
  have hempty : Numbered w₀ := by
    intro s h hh
    rw [hstart] at hh
    cases hh
  have hw := runSystem_numbered rounds calls hempty hsession
  obtain ⟨hw', hends⟩ := cProcessxWait_numbers rounds s timeout w.waitPipes (w.firstNumber s) w _ w'
    ⟨hw, rfl, rfl⟩ hrun
  refine ⟨?_, ?_⟩
  · rw [hw'.cleared_iff, hw.cleared_iff]
    rcases hends result rfl with ⟨hholding, hleaves⟩ | ⟨number, hholding, hiff⟩
    · rw [hholding.firstNumber]
      exact ⟨fun hnone => ⟨hleaves, fun _ => hnone⟩, fun h => h.2 hholding.waitPipes⟩
    · rw [hholding.firstNumber, hiff]
      refine ⟨fun hleaves => ⟨hleaves, fun heq => ?_⟩, fun h => h.1⟩
      have hmore := hholding.waitPipes
      omega
  · rintro hcleared node wp rfl
    exact hcleared.childExited wp

/-- The script that starts the child 100. -/
def startsChild : List Choice :=
  [.dead [], .ok, .ok, .ok, .dead [], .ok, .ok, .pid 100, .dead [], .ok, .ok, .ok, .dead [], .ok,
    .ok, .ok, .ok, .dead [], .ok, .ok]

/-- A wait whose child exits while it polls. -/
theorem wait_clears_numbers_exit :
    ∃ w w', Runs World.move (cProcessxWait 1 0 1000) w (some (.ok true)) w' ∧
      ((NumbersCleared 0 w' ↔ ¬LeavesPolling (.ok true) ∧
          (w'.waitPipes = w.waitPipes → NumbersCleared 0 w)) ∧
        (NumbersCleared 0 w' → ∀ node wp, node.status = 0 → ∀ fd before,
          .close .handler fd before ∈ (w'.childExited node wp).log →
            .close .handler fd before ∈ w'.log)) ∧
      w'.waitPipes ≠ w.waitPipes := by
  have hruns : ∃ w w', Runs World.move (runSystem 1 [.exec [] false false 0,
        .process (.wait 0 1000)]) {} none w ∧
      Runs World.move (cProcessxWait 1 0 1000) w (some (.ok true)) w' ∧
      (w.waitPipes, w'.waitPipes) = (0, 1) :=
    exists_run_after_drive (acts (startsChild ++ [.ok]))
      (acts [.ok, .ok, .ok, .ok, .ok, .fds 5 6, .ok, .ok] ++
        [.move (.exit 100 (.exited 0)), .move .sigchld] ++ acts [.ok, .ok, .ok])
      (fun w w' : World => (w.waitPipes, w'.waitPipes)) (by decide)
  obtain ⟨w, w', hsession, hrun, hpipes⟩ := hruns
  obtain ⟨hzero, hone⟩ := Prod.mk.inj hpipes
  refine ⟨w, w', hrun, wait_clears_numbers_iff 1 _ 0 1000 (fun _ => rfl) hsession hrun, ?_⟩
  rw [hzero, hone]
  decide

/-- A wait that is interrupted: the handle keeps the numbers. When the next process gets one of
them for its pty, and the child exits, the handler closes the pty. -/
theorem interrupted_wait_keeps_numbers :
    (∃ w w', Runs World.move (runSystem 1 [.exec [] false false 0, .process (.wait 0 1000)]) {}
        none w ∧
      Runs World.move (cProcessxWait 1 0 1000) w (some (.error "interrupt")) w' ∧
      NumbersCleared 0 w ∧ ¬NumbersCleared 0 w') ∧
    ∃ w', Runs World.move (runSystem 1 [.exec [] false false 0, .process (.wait 0 1000),
        .exec [] true false 0]) {} (some (.ok ())) w' ∧
      .close .handler 6 (some .other) ∈ w'.log := by
  constructor
  · have hruns : ∃ w w', Runs World.move (runSystem 1 [.exec [] false false 0,
          .process (.wait 0 1000)]) {} none w ∧
        Runs World.move (cProcessxWait 1 0 1000) w (some (.error "interrupt")) w' ∧
        (w.firstNumber 0, w'.firstNumber 0) = (none, some 5) :=
      exists_run_after_drive (acts (startsChild ++ [.ok]))
        (acts [.ok, .ok, .ok, .ok, .ok, .fds 5 6, .ok, .ok, .ok, .fail])
        (fun w w' : World => (w.firstNumber 0, w'.firstNumber 0)) (by decide)
    obtain ⟨w, w', hsession, hrun, hseen⟩ := hruns
    obtain ⟨hbefore, hafter⟩ := Prod.mk.inj hseen
    have hempty : Numbered {} := fun s h hh => by cases hh
    have hw := runSystem_numbered 1 _ hempty hsession
    refine ⟨w, w', hsession, hrun, (hw.cleared_iff 0).mpr hbefore, fun hcleared => ?_⟩
    have hw' := (cProcessxWait_numbers 1 0 1000 w.waitPipes (w.firstNumber 0) w _ w'
      ⟨hw, rfl, rfl⟩ hrun).1
    rw [hw'.cleared_iff, hafter] at hcleared
    cases hcleared
  · have hruns : ∃ w', Runs World.move (runSystem 1 [.exec [] false false 0,
          .process (.wait 0 1000), .exec [] true false 0]) {} (some (.ok ())) w' ∧
        decide (.close .handler 6 (some .other) ∈ w'.log) = true :=
      exists_run_of_drive (acts (startsChild ++ [.ok, .ok, .ok, .ok, .ok, .ok, .fds 5 6, .ok, .ok,
          .ok, .fail, .ok, .ok, .ok, .dead [], .ok, .ok, .ok, .dead [], .ok, .ok, .pid 101,
          .dead [], .ok, .pty 6, .ok, .dead [], .ok, .ok, .ok, .ok, .dead [], .ok, .ok]) ++
          [.move (.exit 100 (.exited 0)), .move .sigchld])
        (fun w : World => decide (.close .handler 6 (some .other) ∈ w.log)) (by decide)
    obtain ⟨w', hrun, hseen⟩ := hruns
    exact ⟨w', hrun, of_decide_eq_true hseen⟩

end Processx
