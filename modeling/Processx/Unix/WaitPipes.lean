import Processx.Unix.Actions
import Processx.Unix.Session
import Mathlib.Data.List.Perm.Basic
import Mathlib.Data.List.Nodup
import Mathlib.Data.List.Count

/-!
# Who closes the pipe of a wait

A wait makes a pipe, and its exit callback closes both ends by the numbers it has kept.
The handler closes the write end as well, when it collects the child. The account of a
state lists the ends that `close()` was called on and the descriptors that callbacks are
still going to close. As long as the handler has closed nothing, the account holds every
end of every pipe exactly once.
-/

namespace Processx

open Interruptible

/-- What `close()` was called on by the handler and by the exit callbacks, newest first:
`none` for a number that was not open. -/
def closedEnds : List Event → List (Option Fd)
  | [] => []
  | .close .handler _ before :: log => before :: closedEnds log
  | .close .waitCleanup _ before :: log => before :: closedEnds log
  | _ :: log => closedEnds log

/-- How often the handler has closed a descriptor. -/
def handlerCloses : List Event → ℕ
  | [] => 0
  | .close .handler _ _ :: log => handlerCloses log + 1
  | _ :: log => handlerCloses log

/-- The ends of the first `pipes` pipes. -/
def IsEnd (pipes : ℕ) (x : Option Fd) : Prop :=
  ∃ pipe < pipes, x = some (.waitRead pipe) ∨ x = some (.waitWrite pipe)

/-- No closed number was closed, and no end twice. -/
def ClosedAtMostOnce (w : World) : Prop :=
  ∀ x ∈ closedEnds w.log, IsEnd w.waitPipes x ∧ (closedEnds w.log).count x = 1

/-- Besides, every end of every pipe was closed. -/
def ClosedOnce (w : World) : Prop :=
  ClosedAtMostOnce w ∧ ∀ x, IsEnd w.waitPipes x → x ∈ closedEnds w.log

/-- The callbacks of all contexts. -/
abbrev Callbacks := List (List (Option (ℕ × ℕ)))

/-- The descriptors that a list of callbacks closes. -/
def numbers : List (Option (ℕ × ℕ)) → List ℕ
  | [] => []
  | none :: exits => numbers exits
  | some (r, wr) :: exits => r :: wr :: numbers exits

/-- The descriptors still to be closed: some at once, and those of the callbacks. -/
def World.toClose (w : World) (pending : List ℕ) : List ℕ :=
  pending ++ w.callbacks.flatMap numbers

/-- What was closed and what is still to be closed. -/
def World.account (w : World) (pending : List ℕ) : List (Option Fd) :=
  closedEnds w.log ++ (w.toClose pending).map w.fds

/-- The pty that a handle holds open. -/
def World.pty (w : World) (status : Sexp) : Option ℕ := (w.handles status).bind Handle.ptyChildFd

/-- Every pty is open, is no end of a wait pipe, and belongs to one handle. -/
structure PtysApart (w : World) : Prop where
  other : ∀ s fd, w.pty s = some fd → w.fds fd = some .other
  unshared : ∀ s s' fd, w.pty s = some fd → w.pty s' = some fd → s = s'

/-- The account holds the ends of all pipes, each once. -/
structure Balanced (pending : List ℕ) (w : World) : Prop where
  ends : ∀ x ∈ w.account pending, IsEnd w.waitPipes x
  once : ∀ x, IsEnd w.waitPipes x → (w.account pending).count x = 1
  ptys : PtysApart w

/-- What holds in a run of waits, where `shape` is what is known of the callbacks: two
descriptors were closed or are to be closed for every pipe, not counting what the handler
does; and where the handler has closed nothing, the account is balanced. -/
structure Owns (shape : Callbacks → Prop) (pending : List ℕ) (w : World) :
    Prop where
  callbacks : shape w.callbacks
  tally : (closedEnds w.log).length + (w.toClose pending).length =
    2 * w.waitPipes + handlerCloses w.log
  balanced : handlerCloses w.log = 0 → Balanced pending w

/-- The invariant of the runs. -/
def Tallied (w : World) : Prop := ∃ shape pending, Owns shape pending w

/-- A step that closes and opens nothing but a pty. -/
structure Quiet (w w' : World) : Prop where
  callbacks : w'.callbacks = w.callbacks
  waitPipes : w'.waitPipes = w.waitPipes
  closed : closedEnds w'.log = closedEnds w.log
  handler : handlerCloses w'.log = handlerCloses w.log
  ptys : PtysApart w → PtysApart w' ∧ ∀ n, w'.fds n = w.fds n ∨ w.fds n = some .other

/-- A step that changes no descriptor, and where at most handles forget their pty. -/
theorem Quiet.of_same {w w' : World} (hcallbacks : w'.callbacks = w.callbacks)
    (hpipes : w'.waitPipes = w.waitPipes) (hclosed : closedEnds w'.log = closedEnds w.log)
    (hhandler : handlerCloses w'.log = handlerCloses w.log) (hfds : w'.fds = w.fds)
    (hpty : ∀ s fd, w'.pty s = some fd → w.pty s = some fd) : Quiet w w' where
  callbacks := hcallbacks
  waitPipes := hpipes
  closed := hclosed
  handler := hhandler
  ptys h := by
    refine ⟨⟨fun s fd hs => ?_, fun s s' fd hs hs' => ?_⟩, fun n => Or.inl (by rw [hfds])⟩
    · rw [hfds]
      exact h.other s fd (hpty s fd hs)
    · exact h.unshared s s' fd (hpty s fd hs) (hpty s' fd hs')

/-- No step at all. -/
theorem Quiet.refl (w : World) : Quiet w w := .of_same rfl rfl rfl rfl rfl fun _ _ hs => hs

/-- One quiet step after another. -/
theorem Quiet.trans {w₁ w₂ w₃ : World} (h₁ : Quiet w₁ w₂) (h₂ : Quiet w₂ w₃) : Quiet w₁ w₃ where
  callbacks := h₂.callbacks.trans h₁.callbacks
  waitPipes := h₂.waitPipes.trans h₁.waitPipes
  closed := h₂.closed.trans h₁.closed
  handler := h₂.handler.trans h₁.handler
  ptys h := by
    obtain ⟨hapart₂, hfds₁⟩ := h₁.ptys h
    obtain ⟨hapart₃, hfds₂⟩ := h₂.ptys hapart₂
    refine ⟨hapart₃, fun n => ?_⟩
    rcases hfds₁ n with hsame | hother
    · rw [← hsame]
      exact hfds₂ n
    · exact Or.inr hother

variable {shape shape' : Callbacks → Prop} {pending : List ℕ}

/-- Such a step keeps what holds in a run. -/
theorem Owns.quiet {w w' : World} (h : Owns shape pending w) (hquiet : Quiet w w') :
    Owns shape pending w' := by
  have htoClose : w'.toClose pending = w.toClose pending := by
    rw [World.toClose, World.toClose, hquiet.callbacks]
  refine ⟨?_, ?_, fun hhandler => ?_⟩
  · rw [hquiet.callbacks]
    exact h.callbacks
  · rw [hquiet.closed, htoClose, hquiet.waitPipes, hquiet.handler]
    exact h.tally
  · obtain ⟨hends, honce, hptys⟩ := h.balanced (hquiet.handler ▸ hhandler)
    obtain ⟨hapart, hfds⟩ := hquiet.ptys hptys
    have haccount : w'.account pending = w.account pending := by
      rw [World.account, World.account, hquiet.closed, htoClose]
      congr 1
      refine List.map_congr_left fun n hn => (hfds n).resolve_right fun hother => ?_
      obtain ⟨pipe, _, hread | hwrite⟩ :=
        hends (w.fds n) (List.mem_append_right _ (List.mem_map_of_mem hn))
      · rw [hother] at hread
        cases hread
      · rw [hother] at hwrite
        cases hwrite
    refine ⟨?_, ?_, hapart⟩
    · rw [haccount, hquiet.waitPipes]
      exact hends
    · rw [haccount, hquiet.waitPipes]
      exact honce

/-- Knowing less about the callbacks. -/
theorem Owns.weaken {w : World} (h : Owns shape pending w) (hshape : ∀ cs, shape cs → shape' cs) :
    Owns shape' pending w := ⟨hshape _ h.callbacks, h.tally, h.balanced⟩

/-- The pty that is closed is the one of the handle. -/
theorem pty_of_releasedPty {w : World} {status : Sexp} {fd : ℕ}
    (h : w.releasedPty status = some fd) : w.pty status = some fd := by
  obtain ⟨handle, hh, hfd⟩ := Option.bind_eq_some_iff.mp h
  split at hfd
  · cases hfd
  · exact Option.bind_eq_some_iff.mpr ⟨handle, hh, hfd⟩

/-- The ptys that are left after a status was stored. -/
theorem pty_collectExitStatus {w : World} {status s : Sexp} {wp : WaitResult} {fd : ℕ}
    (h : (w.collectExitStatus status wp).pty s = some fd) :
    w.pty s = some fd ∧ (s = status → w.releasedPty status = none) := by
  rw [World.pty, handles_collectExitStatus] at h
  by_cases hs : s = status
  · subst hs
    rw [if_pos rfl] at h
    unfold World.pty World.releasedPty
    cases hh : w.handles s with
    | none =>
      rw [hh] at h
      cases h
    | some handle =>
      rw [hh] at h
      by_cases hcollected : handle.collected = true
      · have hsame : handle.collect wp = handle := if_pos hcollected
        rw [Option.map_some, hsame] at h
        exact ⟨h, fun _ => if_pos hcollected⟩
      · have hnone : (handle.collect wp).ptyChildFd = none := by
          rw [Handle.collect, if_neg hcollected]
        rw [Option.map_some, Option.bind_some, hnone] at h
        cases h
  · rw [if_neg hs] at h
    exact ⟨h, fun heq => absurd heq hs⟩

/-- Storing a status closes at most the pty of the handle. -/
theorem quiet_collectExitStatus (w : World) (status : Sexp) (wp : WaitResult) :
    Quiet w (w.collectExitStatus status wp) := by
  have hptys : PtysApart w → PtysApart (w.collectExitStatus status wp) ∧
      ∀ n, (w.collectExitStatus status wp).fds n = w.fds n ∨ w.fds n = some .other := by
    refine fun h => ⟨⟨fun s fd hs => ?_, fun s s' fd hs hs' => ?_⟩, fun n => ?_⟩
    · obtain ⟨hpty, hkept⟩ := pty_collectExitStatus hs
      rw [fds_collectExitStatus, if_neg]
      · exact h.other s fd hpty
      · intro hreleased
        have heq := h.unshared s status fd hpty (pty_of_releasedPty hreleased)
        rw [hkept heq] at hreleased
        cases hreleased
    · exact h.unshared s s' fd (pty_collectExitStatus hs).1 (pty_collectExitStatus hs').1
    · rw [fds_collectExitStatus]
      split
      next hreleased => exact Or.inr (h.other status n (pty_of_releasedPty hreleased))
      next => exact Or.inl rfl
  obtain ⟨_, heq⟩ | ⟨fd, _, heq⟩ := collectExitStatus_cases w status wp
  · rw [heq] at hptys ⊢
    exact ⟨rfl, rfl, rfl, rfl, hptys⟩
  · rw [heq] at hptys ⊢
    exact ⟨rfl, rfl, rfl, rfl, hptys⟩

/-- A `waitpid()` closes nothing. -/
theorem quiet_waitNohang {w w₁ : World} {pid : ℕ} {wp : WaitResult}
    (h : w.waitNohang pid = (wp, w₁)) : Quiet w w₁ := by
  obtain rfl | ⟨p, rfl⟩ := waitNohang_eq_setProc h
  · exact .refl _
  · exact .of_same rfl rfl rfl rfl rfl fun _ _ hs => hs

/-- Where the handler closes a descriptor, nothing more is said about the account. -/
theorem Owns.childExited {w : World} (h : Owns shape pending w) (node : Node) (wp : WaitResult) :
    Owns shape pending (w.childExited node wp) := by
  have hcollect := h.quiet (quiet_collectExitStatus w node.status wp)
  obtain ⟨_, heq⟩ | ⟨handle, _, _, heq⟩ | ⟨handle, fd, _, _, heq⟩ := childExited_cases w node wp
  · rw [heq]
    exact h.quiet (.of_same rfl rfl rfl rfl rfl fun _ _ hs => hs)
  · rw [heq]
    exact hcollect.quiet (.of_same rfl rfl rfl rfl rfl fun _ _ hs => hs)
  · rw [heq]
    refine ⟨hcollect.callbacks, ?_, fun hhandler => nomatch hhandler⟩
    have htally := hcollect.tally
    generalize w.collectExitStatus node.status wp = w₁ at htally
    change (closedEnds w₁.log).length + 1 + (w₁.toClose pending).length =
      2 * w₁.waitPipes + (handlerCloses w₁.log + 1)
    omega

/-- What holds in a run of waits is kept by the handler. -/
theorem kept_owns (shape : Callbacks → Prop) (pending : List ℕ) :
    Kept World.move Tallied (Owns shape pending) where
  move := by
    apply move_keeps
    · exact fun w pid stat hw _ => hw.quiet (.of_same rfl rfl rfl rfl rfl fun _ _ hs => hs)
    · exact fun w hw _ _ => hw.quiet (.of_same rfl rfl rfl rfl rfl fun _ _ hs => hs)
    · exact fun w node wp w₁ hw _ hwait _ => (hw.quiet (quiet_waitNohang hwait)).childExited node wp
    · exact fun w kept hw _ => hw.quiet (.of_same rfl rfl rfl rfl rfl fun _ _ hs => hs)
  safe _ h := ⟨shape, pending, h⟩

/-- An end that is in the account is not in it a second time. -/
theorem Balanced.notMem {w : World} {n : ℕ} (h : Balanced (n :: pending) w) :
    n ∉ w.toClose pending := by
  intro hn
  have hend := h.ends (w.fds n) (List.mem_append_right _ (List.mem_map_of_mem List.mem_cons_self))
  have honce := h.once _ hend
  have htwice : 0 < ((w.toClose pending).map w.fds).count (w.fds n) :=
    List.count_pos_iff.mpr (List.mem_map_of_mem hn)
  rw [World.account] at honce
  change (_ ++ w.fds n :: (w.toClose pending).map w.fds).count _ = 1 at honce
  rw [List.count_append, List.count_cons_self] at honce
  omega

/-- Closing the first of the descriptors that are to be closed. -/
theorem Owns.close {w : World} {n : ℕ} (h : Owns shape (n :: pending) w) :
    Owns shape pending (w.close .waitCleanup n) := by
  refine ⟨h.callbacks, ?_, fun hhandler => ?_⟩
  · have htally := h.tally
    change (closedEnds w.log).length + 1 + (w.toClose pending).length =
      2 * w.waitPipes + handlerCloses w.log
    change (closedEnds w.log).length + ((w.toClose pending).length + 1) = _ at htally
    omega
  · have hbalanced := h.balanced hhandler
    have hmap : (w.toClose pending).map (w.close .waitCleanup n).fds =
        (w.toClose pending).map w.fds := by
      refine List.map_congr_left fun m hm => if_neg ?_
      rintro rfl
      exact hbalanced.notMem hm
    have haccount : ((w.close .waitCleanup n).account pending).Perm (w.account (n :: pending)) := by
      change (w.fds n :: (closedEnds w.log ++ (w.toClose pending).map _)).Perm
        (closedEnds w.log ++ w.fds n :: (w.toClose pending).map w.fds)
      rw [hmap]
      exact List.perm_middle.symm
    have hend : IsEnd w.waitPipes (w.fds n) := hbalanced.ends _
      (List.mem_append_right _ (List.mem_map_of_mem List.mem_cons_self))
    refine ⟨fun x hx => hbalanced.ends x (haccount.mem_iff.mp hx), fun x hx => ?_, ?_⟩
    · rw [haccount.count_eq]
      exact hbalanced.once x hx
    · refine ⟨fun s fd hs => ?_, hbalanced.ptys.unshared⟩
      have hother := hbalanced.ptys.other s fd hs
      refine (if_neg ?_).trans hother
      rintro rfl
      obtain ⟨pipe, _, hread | hwrite⟩ := hend
      · rw [hother] at hread
        cases hread
      · rw [hother] at hwrite
        cases hwrite

/-- The ends of one more pipe. -/
theorem ends_succ {pipes : ℕ} {account : List (Option Fd)} (hends : ∀ x ∈ account, IsEnd pipes x)
    (honce : ∀ x, IsEnd pipes x → account.count x = 1) :
    (∀ x ∈ some (.waitRead pipes) :: some (.waitWrite pipes) :: account, IsEnd (pipes + 1) x) ∧
    ∀ x, IsEnd (pipes + 1) x →
      (some (.waitRead pipes) :: some (.waitWrite pipes) :: account).count x = 1 := by
  have hnew : ∀ x, x = some (.waitRead pipes) ∨ x = some (.waitWrite pipes) →
      account.count x = 0 := by
    intro x hx
    refine List.count_eq_zero.mpr fun hmem => ?_
    obtain ⟨pipe, hlt, hold⟩ := hends x hmem
    rcases hx with rfl | rfl <;> rcases hold with hold | hold <;> cases hold <;>
      exact lt_irrefl _ hlt
  refine ⟨fun x hx => ?_, fun x hx => ?_⟩
  · rcases List.mem_cons.mp hx with rfl | hx
    · exact ⟨pipes, Nat.lt_succ_self _, Or.inl rfl⟩
    · rcases List.mem_cons.mp hx with rfl | hx
      · exact ⟨pipes, Nat.lt_succ_self _, Or.inr rfl⟩
      · obtain ⟨pipe, hlt, hold⟩ := hends x hx
        exact ⟨pipe, Nat.lt_succ_of_lt hlt, hold⟩
  · obtain ⟨pipe, hlt, hx⟩ := hx
    rcases Nat.lt_succ_iff_lt_or_eq.mp hlt with hlt | rfl
    · have hold := honce x ⟨pipe, hlt, hx⟩
      have hne := hlt.ne'
      rw [List.count_cons_of_ne, List.count_cons_of_ne, hold]
      · rcases hx with rfl | rfl <;> simp [hne]
      · rcases hx with rfl | rfl <;> simp [hne]
    · have hzero := hnew x hx
      rcases hx with rfl | rfl <;> simp [hzero]

/-- A pipe that is made from free descriptors opens its two ends and nothing else. -/
theorem fds_withWaitpipe {w : World} (status : Sexp) (h : Handle) {r wr : ℕ} (hr : w.fds r = none)
    (hwr : w.fds wr = none) (hne : r ≠ wr) :
    (w.withWaitpipe status h r wr).fds r = some (.waitRead w.waitPipes) ∧
      (w.withWaitpipe status h r wr).fds wr = some (.waitWrite w.waitPipes) ∧
      ∀ n, w.fds n ≠ none → (w.withWaitpipe status h r wr).fds n = w.fds n := by
  refine ⟨if_pos rfl, (if_neg hne.symm).trans (if_pos rfl), fun n hn => ?_⟩
  refine (if_neg ?_).trans (if_neg ?_)
  · rintro rfl
    exact hn hr
  · rintro rfl
    exact hn hwr

/-- It changes no pty. -/
theorem pty_withWaitpipe {w : World} {status : Sexp} {h : Handle} {r wr : ℕ}
    (hh : w.handles status = some h) (s : Sexp) :
    (w.withWaitpipe status h r wr).pty s = w.pty s := by
  by_cases hs : s = status
  · subst hs
    simp [World.pty, World.withWaitpipe, World.setHandle, hh]
  · simp [World.pty, World.withWaitpipe, World.setHandle, hs]

/-- The account after a pipe was made. -/
theorem Balanced.withWaitpipe {w : World} {status : Sexp} {h : Handle} {r wr : ℕ}
    (hbalanced : Balanced pending w) (hh : w.handles status = some h) (hr : w.fds r = none)
    (hwr : w.fds wr = none) (hne : r ≠ wr) :
    Balanced (r :: wr :: pending) (w.withWaitpipe status h r wr) := by
  obtain ⟨hread, hwrite, hold⟩ := fds_withWaitpipe status h hr hwr hne
  have hopen : ∀ n ∈ w.toClose pending, w.fds n ≠ none := by
    intro n hn hnone
    obtain ⟨pipe, _, heq | heq⟩ :=
      hbalanced.ends (w.fds n) (List.mem_append_right _ (List.mem_map_of_mem hn))
    all_goals
      rw [hnone] at heq
      cases heq
  have haccount : ((w.withWaitpipe status h r wr).account (r :: wr :: pending)).Perm
      (some (.waitRead w.waitPipes) :: some (.waitWrite w.waitPipes) :: w.account pending) := by
    change (closedEnds w.log ++ (w.withWaitpipe status h r wr).fds r ::
      (w.withWaitpipe status h r wr).fds wr ::
      (w.toClose pending).map (w.withWaitpipe status h r wr).fds).Perm _
    rw [hread, hwrite, List.map_congr_left fun n hn => hold n (hopen n hn)]
    exact List.perm_middle.trans (.cons _ List.perm_middle)
  obtain ⟨hends, honce⟩ := ends_succ hbalanced.ends hbalanced.once
  refine ⟨fun x hx => hends x (haccount.mem_iff.mp hx), fun x hx => ?_, ?_⟩
  · rw [haccount.count_eq]
    exact honce x hx
  · refine ⟨fun s fd hs => ?_, fun s s' fd hs hs' => ?_⟩
    · rw [pty_withWaitpipe hh] at hs
      have hother := hbalanced.ptys.other s fd hs
      rw [hold fd (by rw [hother]; exact nofun)]
      exact hother
    · rw [pty_withWaitpipe hh] at hs hs'
      exact hbalanced.ptys.unshared s s' fd hs hs'

/-- A new pipe is put down for closing. -/
theorem Owns.makeWaitpipe {status : Sexp} {w w' : World} {c : Choice} {made : Option (ℕ × ℕ × ℕ)}
    (h : Owns shape pending w) (hmake : makeWaitpipe status w c = some (made, w')) :
    Owns shape ((made.elim [] fun ends => [ends.1, ends.2.1]) ++ pending) w' := by
  obtain ⟨rfl, rfl⟩ | ⟨r, wr, handle, rfl, hhandle, hr, hwr, hne, rfl⟩ := makeWaitpipe_cases hmake
  · exact h
  · refine ⟨h.callbacks, ?_, fun hhandler => ?_⟩
    · have htally := h.tally
      change (closedEnds w.log).length + ((w.toClose pending).length + 1 + 1) =
        2 * (w.waitPipes + 1) + handlerCloses w.log
      omega
    · exact (h.balanced hhandler).withWaitpipe hhandle hr hwr hne

/-- The same descriptors, in other callbacks. -/
theorem Owns.moveCallbacks {w : World} {pending' : List ℕ} {callbacks : Callbacks}
    (h : Owns shape pending w) (hshape : shape' callbacks)
    (hsame : pending' ++ callbacks.flatMap numbers = w.toClose pending) :
    Owns shape' pending' { w with callbacks := callbacks } := by
  have htoClose : World.toClose { w with callbacks := callbacks } pending' = w.toClose pending :=
    hsame
  refine ⟨hshape, ?_, fun hhandler => ?_⟩
  · rw [htoClose]
    exact h.tally
  · have hbalanced := h.balanced hhandler
    have haccount : World.account { w with callbacks := callbacks } pending' =
      w.account pending := by
      rw [World.account, htoClose]
      rfl
    refine ⟨?_, ?_, hbalanced.ptys.other, hbalanced.ptys.unshared⟩
    · rw [haccount]
      exact hbalanced.ends
    · rw [haccount]
      exact hbalanced.once

variable {α ρ : Type}

/-- An action that closes and opens nothing but a pty. -/
def QuietAct (a : Act ρ) : Prop := ∀ w c r w', a w c = some (r, w') → Quiet w w'

/-- Notes say nothing about descriptors. -/
theorem quiet_of_notes {w w' : World} (h : Notes w w') : Quiet w w' := by
  obtain ⟨notes, hlog, hnotes⟩ := h.log
  have hsame : closedEnds (notes ++ w.log) = closedEnds w.log ∧
      handlerCloses (notes ++ w.log) = handlerCloses w.log := by
    clear hlog
    induction notes with
    | nil => exact ⟨rfl, rfl⟩
    | cons e notes ih =>
      obtain ⟨hclosed, hhandler⟩ := ih fun e he => hnotes e (List.mem_cons_of_mem _ he)
      have he := hnotes e List.mem_cons_self
      cases e <;> first | exact ⟨hclosed, hhandler⟩ | cases he
  refine .of_same h.callbacks h.waitPipes ?_ ?_ h.fds fun s fd hs => ?_
  · rw [hlog]
    exact hsame.1
  · rw [hlog]
    exact hsame.2
  · rw [World.pty, h.handles] at hs
    exact hs

/-- Actions that only note something down close nothing. -/
theorem quietAct_of_noteAct {ρ : Type} (a : Act ρ) (h : NoteAct a) : QuietAct a :=
  fun w c r w' ha => quiet_of_notes (h w c r w' ha)

/-- An event that closes nothing is recorded. -/
theorem Quiet.record (w : World) {e : Event} (hclosed : closedEnds (e :: w.log) = closedEnds w.log)
    (hhandler : handlerCloses (e :: w.log) = handlerCloses w.log) : Quiet w (w.record e) :=
  .of_same rfl rfl hclosed hhandler rfl fun _ _ hs => hs

/-- A `waitpid()` that is recorded closes nothing. -/
theorem quietAct_waitpid (site : WaitSite) (status : Sexp) (pid : ℕ) :
    QuietAct (waitpid site status pid) := by
  intro w c wp w' h
  obtain ⟨_, rfl⟩ | ⟨w₁, hwait, rfl⟩ := waitpid_cases h
  · exact .refl _
  · exact (quiet_waitNohang hwait).trans (.record _ rfl rfl)

/-- Nor does one that blocks. -/
theorem quietAct_waitpidBlocking (site : WaitSite) (status : Sexp) (pid : ℕ) :
    QuietAct (waitpidBlocking site status pid) := by
  intro w c wp w' h
  obtain ⟨_, w₁, hwait, rfl⟩ := waitpidBlocking_cases h
  exact (quiet_waitNohang hwait).trans (.record _ rfl rfl)

/-- Nor does storing an exit status. -/
theorem quietAct_collectExitStatus (status : Sexp) (wp : WaitResult) :
    QuietAct (collectExitStatus status wp) := by
  rintro w c r w' ⟨⟩
  exact quiet_collectExitStatus w status wp

/-- Nor does a signal. -/
theorem quietAct_kill (site : KillSite) (status : Sexp) (target : ℤ) (sig : ℕ) :
    QuietAct (kill site status target sig) := by
  intro w c r w' h
  obtain rfl := kill_eq_record h
  exact .record _ rfl rfl

/-- Nor does clearing the numbers of a wait pipe in the handle. -/
theorem quietAct_clearWaitpipe (status : Sexp) : QuietAct (clearWaitpipe status) := by
  rintro w c r w' ⟨⟩
  refine .of_same rfl rfl rfl rfl rfl fun s fd hpty => ?_
  by_cases hs : s = status
  · subst hs
    cases hh : w.handles s with
    | none => simp [World.pty, World.setHandle, hh] at hpty
    | some h => simpa [World.pty, World.setHandle, hh] using hpty
  · simpa [World.pty, World.setHandle, hs] using hpty

/-- Programs that keep the account. -/
abbrev Accounts (P : World → Prop) (p : Call α) (Q : Except String α → World → Prop) : Prop :=
  Ensures World.move Tallied P p Q

/-- A program of quiet actions. -/
theorem Accounts.each {p : Call α} (hp : p.Each QuietAct) :
    Accounts (Owns shape pending) p (fun _ => Owns shape pending) := by
  refine Ensures.each (kept_owns shape pending) (hp.mono fun a ha => ?_)
  exact fun w c r w' hw h => hw.quiet (ha w c r w' h)

/-- A quiet action at the beginning. -/
theorem Accounts.step {a : Act ρ} (ha : QuietAct a) {f : ρ → Call α}
    {Q : Except String α → World → Prop} (hf : ∀ r, Accounts (Owns shape pending) (f r) Q) :
    Accounts (Owns shape pending) (Prog.lift a >>= f) Q :=
  Ensures.step (kept_owns shape pending) (fun _ => Owns shape pending)
    (fun w c r w' hw h => hw.quiet (ha w c r w' h)) hf

/-- Outside of the calls there are no callbacks. -/
def NoContext (callbacks : Callbacks) : Prop := callbacks = []

/-- In a call there is one list of callbacks. -/
def InContext (callbacks : Callbacks) : Prop := ∃ exits, callbacks = [exits]

/-- A wait has registered its callback. -/
def Registered (callbacks : Callbacks) : Prop :=
  ∃ exits, callbacks = [none :: exits]

/-- Where an exit is registered there is a context. -/
theorem Registered.inContext {callbacks : Callbacks}
    (h : Registered callbacks) : InContext callbacks := by
  obtain ⟨exits, rfl⟩ := h
  exact ⟨_, rfl⟩

/-- A wait whose pipe was made: the callback gets the numbers before the handler can run. -/
theorem afterWaitpipe_accounts (rounds : ℕ) (status : Sexp) (pid : ℕ) (old : Bool) (timeout : ℤ)
    (r wr pipe : ℕ) :
    Accounts (Owns Registered [r, wr]) (do
        Prog.lift (saveWaitpipe r wr)
        Prog.lift unblockSigchld
        let answer ← pollLoop status pid r wr pipe timeout rounds timeout
        endWait status pid old answer)
      (fun _ => Owns InContext []) := by
  refine Ensures.step (kept_owns _ _) (fun _ => Owns InContext []) ?_ fun _ => ?_
  · intro w c u w' hw hsave
    obtain ⟨exits, hcallbacks⟩ := hw.callbacks
    obtain rfl := saveWaitpipe_eq hcallbacks hsave
    refine hw.moveCallbacks ⟨_, rfl⟩ ?_
    rw [World.toClose, hcallbacks]
    rfl
  have hkill := quietAct_kill .waitCheck status pid 0
  have hclear := quietAct_clearWaitpipe status
  refine Accounts.each (.step (quietAct_of_noteAct _ noteAct_unblockSigchld) fun _ => ?_)
  refine .bind (pollLoop_each quietAct_of_noteAct hkill r wr pipe timeout rounds timeout) ?_
  exact fun answer => endWait_each quietAct_of_noteAct hclear pid old answer

/-- A wait leaves the two ends of its pipe to its callback. -/
theorem cProcessxWait_accounts (rounds : ℕ) (status : Sexp) (timeout : ℤ) :
    Accounts (Owns InContext []) (cProcessxWait rounds status timeout)
      (fun _ => Owns InContext []) := by
  refine Ensures.step (kept_owns _ _) (fun registered w => Owns InContext [] w ∧
    (registered = true → Owns Registered [] w)) ?_ fun registered => ?_
  · intro w c registered w' hw hcall
    obtain ⟨rfl, rfl⟩ | ⟨frame, frames, rfl, hcallbacks, rfl⟩ := callOnExit_cases hcall
    · exact ⟨hw.quiet (.record _ rfl rfl), nofun⟩
    · obtain ⟨exits, hexits⟩ := hw.callbacks
      rw [hexits] at hcallbacks
      obtain ⟨rfl, rfl⟩ := List.cons.inj hcallbacks
      have hregistered : Owns Registered [] { w with callbacks := [none :: exits] } := by
        refine hw.moveCallbacks ⟨_, rfl⟩ ?_
        rw [World.toClose, hexits]
        rfl
      exact ⟨hregistered.weaken fun _ h => h.inContext, fun _ => hregistered⟩
  cases registered with
  | false => exact (Accounts.each (p := .throw _) trivial).conseq (fun _ h => h.1) fun _ _ h => h
  | true =>
    refine Ensures.conseq (R := Owns Registered []) ?_ (fun _ h => h.2 rfl) fun _ _ h => h
    refine Accounts.step (quietAct_of_noteAct _ noteAct_blockSigchld) fun old => ?_
    refine Accounts.step (quietAct_of_noteAct _ (noteAct_readHandle status)) fun handle => ?_
    have hend : ∀ {a : Act Unit} {p : Call Bool}, NoteAct a → p.Each QuietAct →
        Accounts (Owns Registered []) (Prog.lift a >>= fun _ => p)
          (fun _ => Owns InContext []) := by
      refine fun ha hp => (Accounts.each (.step (quietAct_of_noteAct _ ha) fun _ => hp)).conseq
        (fun _ h => h) fun _ _ h => h.weaken fun _ h => h.inContext
    have hrestore := hend (p := .ret true) (noteAct_procmaskSet old) trivial
    cases handle with
    | none => exact hrestore
    | some h =>
      dsimp only
      split
      · exact hrestore
      · refine Accounts.step (quietAct_of_noteAct _ noteAct_setupSigchld) fun _ => ?_
        refine Accounts.step (quietAct_of_noteAct _ noteAct_blockSigchld) fun _ => ?_
        refine Ensures.step (kept_owns _ _) (fun made => Owns Registered
          ((made.elim [] fun ends => [ends.1, ends.2.1]) ++ []))
          (fun w c made w' hw hmake => hw.makeWaitpipe hmake) fun made => ?_
        cases made with
        | none => exact hend (noteAct_restoreAfterFailure old) trivial
        | some ends =>
          obtain ⟨r, wr, pipe⟩ := ends
          exact afterWaitpipe_accounts rounds status h.pid old timeout r wr pipe

/-- The callbacks close what they have kept. -/
theorem callExits_accounts (shape : Callbacks → Prop) (pending : List ℕ)
    (exits : List (Option (ℕ × ℕ))) :
    Accounts (Owns shape (numbers exits ++ pending)) (callExits exits)
      (fun _ => Owns shape pending) := by
  have hclose : ∀ (fd : ℕ) (pending : List ℕ) (f : Unit → Call Unit)
      (Q : Except String Unit → World → Prop), Accounts (Owns shape pending) (f ()) Q →
      Accounts (Owns shape (fd :: pending)) (Prog.lift (closeFd fd) >>= f) Q := by
    refine fun fd pending f Q hf =>
      Ensures.step (kept_owns _ _) (fun _ => Owns shape pending) ?_ fun _ => hf
    rintro w c r w' hw ⟨⟩
    exact hw.close
  induction exits with
  | nil => exact Accounts.each (p := .ret ()) trivial
  | cons exit exits ih =>
    cases exit with
    | none => exact ih
    | some ends =>
      obtain ⟨r, wr⟩ := ends
      exact hclose r _ _ _ (hclose wr _ _ _ ih)

/-- A call from the outside, in a context of its own. -/
theorem withCleanupContext_accounts {body : Call α}
    (hbody : Accounts (Owns InContext []) body (fun _ => Owns InContext [])) :
    Accounts (Owns NoContext []) (withCleanupContext body) (fun _ => Owns NoContext []) := by
  refine Ensures.step (kept_owns _ _) (fun _ => Owns InContext []) ?_ fun _ => ?_
  · rintro w c r w' hw ⟨⟩
    refine hw.moveCallbacks ⟨[], ?_⟩ ?_
    · rw [hw.callbacks]
    · rw [World.toClose, hw.callbacks]
      rfl
  refine hbody.attempt fun result => ?_
  refine Ensures.step (kept_owns _ _) (fun exits => Owns NoContext (numbers exits)) ?_
    fun exits => ?_
  · rintro w c exits w' hw ⟨⟩
    obtain ⟨exits, hexits⟩ := hw.callbacks
    refine hw.moveCallbacks ?_ ?_
    · rw [hexits]
      rfl
    · rw [World.toClose, hexits]
      simp
  have hexits := callExits_accounts NoContext [] exits
  rw [List.append_nil] at hexits
  refine hexits.bind (fun _ => ?_) fun _ _ h => h
  cases result with
  | ok a => exact Accounts.each (p := .ret a) trivial
  | error e => exact Accounts.each (p := .throw e) trivial

/-- What a kill does besides waiting closes no pipe. -/
theorem killHard_quiet (status : Sexp) (pid : ℕ) : (killHard status pid).Each QuietAct := by
  refine .step (quietAct_kill _ _ _ _) fun ret => ?_
  cases ret with
  | gone => exact unblockAndReturn_each quietAct_of_noteAct false
  | error => exact unblockAndThrow_each quietAct_of_noteAct _
  | ok =>
    refine .step (quietAct_waitpidBlocking _ _ _) fun wp => ?_
    refine .step (quietAct_collectExitStatus status wp) fun _ => ?_
    refine .step (quietAct_of_noteAct _ (noteAct_readExitcode status)) fun exitcode => ?_
    exact unblockAndReturn_each quietAct_of_noteAct _

/-- A kill with some grace closes the pipe of its wait, and no other one. -/
theorem killGracefully_accounts (rounds : ℕ) (status : Sexp) (pid : ℕ) (graceMs : ℤ) :
    Accounts (Owns InContext []) (killGracefully rounds status pid graceMs)
      (fun _ => Owns InContext []) := by
  refine Accounts.step (quietAct_kill _ _ _ _) fun ret => ?_
  cases ret with
  | gone => exact Accounts.each (unblockAndReturn_each quietAct_of_noteAct false)
  | error => exact Accounts.each (unblockAndThrow_each quietAct_of_noteAct _)
  | ok =>
    refine (cProcessxWait_accounts rounds status graceMs).bind (fun finished => ?_) fun _ _ h => h
    cases finished with
    | true =>
      refine Accounts.step (quietAct_of_noteAct _ (noteAct_readExitcode status)) fun exitcode => ?_
      exact Accounts.each (unblockAndReturn_each quietAct_of_noteAct _)
    | false => exact Accounts.each (killHard_quiet status pid)

/-- So does `c_processx_kill()`. -/
theorem cProcessxKill_accounts (rounds : ℕ) (status : Sexp) (graceMs : ℤ) :
    Accounts (Owns InContext []) (cProcessxKill rounds status graceMs)
      (fun _ => Owns InContext []) := by
  have hreturn : ∀ result : Bool, Accounts (Owns InContext []) (unblockAndReturn result)
      (fun _ => Owns InContext []) :=
    fun result => Accounts.each (unblockAndReturn_each quietAct_of_noteAct result)
  refine Accounts.step (quietAct_of_noteAct _ noteAct_blockSigchld) fun _ => ?_
  refine Accounts.step (quietAct_of_noteAct _ (noteAct_readHandle status)) fun handle => ?_
  cases handle with
  | none => exact hreturn false
  | some h =>
    dsimp only
    split
    · exact hreturn false
    · refine Accounts.step (quietAct_waitpid _ _ _) fun wp => ?_
      cases wp with
      | echild => exact Accounts.step (quietAct_collectExitStatus _ _) fun _ => hreturn false
      | error => exact Accounts.each (unblockAndThrow_each quietAct_of_noteAct _)
      | exited stat => exact hreturn false
      | none =>
        dsimp only
        split
        · exact killGracefully_accounts rounds status h.pid graceMs
        · exact Accounts.each (killHard_quiet status h.pid)

/-- A node that loses its handle closes nothing. -/
theorem quietAct_clearNodeStatus (node : Node) : QuietAct (clearNodeStatus node) := by
  rintro w c r w' ⟨⟩
  by_cases halive : node.keyAlive = true
  · rw [if_pos halive]
    refine .of_same rfl rfl rfl rfl rfl fun s fd hpty => ?_
    by_cases hs : s = node.status
    · simp [World.pty, World.setHandle, hs] at hpty
    · simpa [World.pty, World.setHandle, hs] using hpty
  · rw [if_neg halive]
    exact .refl w

/-- Nor does the child list when it is emptied. -/
theorem quietAct_clearChildList : QuietAct clearChildList := by
  rintro w c r w' ⟨⟩
  exact .of_same rfl rfl rfl rfl rfl fun _ _ hs => hs

/-- Every call keeps the account. -/
theorem processCall_accounts (rounds : ℕ) (call : ProcessCall) :
    Accounts (Owns NoContext []) (call.run rounds) (fun _ => Owns NoContext []) := by
  have hkept := kept_owns NoContext []
  have hnote : ∀ {ρ : Type} (a : Act ρ), NoteAct a → QuietAct a := quietAct_of_noteAct
  cases call with
  | isAlive status =>
    exact ensures_dropResult hkept (Accounts.each
      (processxIsAlive_each hnote (quietAct_waitpid _ _) (quietAct_collectExitStatus _)))
  | getExitStatus status =>
    exact ensures_dropResult hkept (Accounts.each
      (processxGetExitStatus_each hnote (quietAct_waitpid _ _) (quietAct_collectExitStatus _)))
  | signal status sig group =>
    exact ensures_dropResult hkept (Accounts.each (processxSignal_each hnote
      (fun target => quietAct_kill _ _ target sig) (quietAct_waitpid _ _)
      (quietAct_collectExitStatus _) group))
  | kill status graceMs =>
    exact ensures_dropResult hkept
      (withCleanupContext_accounts (cProcessxKill_accounts rounds status graceMs))
  | wait status timeout =>
    exact ensures_dropResult hkept
      (withCleanupContext_accounts (cProcessxWait_accounts rounds status timeout))
  | unload =>
    exact Accounts.each (unloadCleanup_each hnote (fun s target => quietAct_kill _ s target 9)
      (quietAct_waitpidBlocking _) quietAct_clearNodeStatus quietAct_clearChildList)

/-- All ends of the first pipes. -/
def allEnds (pipes : ℕ) : List (Option Fd) :=
  (List.range pipes).flatMap fun pipe => [some (.waitRead pipe), some (.waitWrite pipe)]

/-- Each pipe has two ends. -/
theorem length_allEnds (pipes : ℕ) : (allEnds pipes).length = 2 * pipes := by
  simp [allEnds, List.length_flatMap, Nat.mul_comm]

/-- If no end was closed twice, there are not more closed ends than ends. -/
theorem ClosedAtMostOnce.length_le {w : World} (h : ClosedAtMostOnce w) :
    (closedEnds w.log).length ≤ 2 * w.waitPipes := by
  have hnodup : (closedEnds w.log).Nodup := by
    refine List.nodup_iff_count_le_one.mpr fun x => ?_
    by_cases hx : x ∈ closedEnds w.log
    · exact (h x hx).2.le
    · rw [List.count_eq_zero.mpr hx]
      exact Nat.zero_le 1
  have hsubset : closedEnds w.log ⊆ allEnds w.waitPipes := by
    intro x hx
    obtain ⟨pipe, hlt, hend⟩ := (h x hx).1
    exact List.mem_flatMap.mpr ⟨pipe, List.mem_range.mpr hlt, by simpa using hend⟩
  rw [← length_allEnds]
  exact (List.subperm_of_subset hnodup hsubset).length_le

/-- What is in a balanced account was closed at most once. -/
theorem Balanced.closedAtMostOnce {w : World} (h : Balanced pending w) : ClosedAtMostOnce w := by
  intro x hx
  have hend := h.ends x (List.mem_append_left _ hx)
  have honce := h.once x hend
  rw [World.account, List.count_append] at honce
  have hpos := List.count_pos_iff.mpr hx
  exact ⟨hend, by omega⟩

/-- **The pipes.** In a session during which the handler has never closed a descriptor, no
closed number and no end was closed a second time, at any moment. And in a session that
is over, every end of every pipe was closed exactly once if and only if the handler has
never closed a descriptor. -/
theorem waitPipes_closed_once_iff (rounds : ℕ) (calls : List ProcessCall) {w w' : World}
    {o : Option (Except String Unit)} (hcallbacks : w.callbacks = []) (hpipes : w.waitPipes = 0)
    (hlog : w.log = []) (hptys : PtysApart w)
    (hrun : Runs World.move (runSession rounds calls) w o w') :
    (handlerCloses w'.log = 0 → ClosedAtMostOnce w') ∧
      (o ≠ none → (ClosedOnce w' ↔ handlerCloses w'.log = 0)) := by
  have hstart : Owns NoContext [] w := by
    refine ⟨hcallbacks, ?_, fun _ => ?_⟩
    · rw [World.toClose, hcallbacks, hlog, hpipes]
      rfl
    · have haccount : w.account [] = [] := by
        rw [World.account, World.toClose, hcallbacks, hlog]
        rfl
      refine ⟨?_, ?_, hptys⟩
      · rw [haccount]
        exact nofun
      · rintro x ⟨pipe, hlt, _⟩
        rw [hpipes] at hlt
        cases hlt
  obtain ⟨⟨shape, pending, howns⟩, hend⟩ := runSession_keeps (kept_owns NoContext []) rounds
    (processCall_accounts rounds) calls w o w' hstart hrun
  refine ⟨fun h => (howns.balanced h).closedAtMostOnce, fun ho => ?_⟩
  obtain ⟨r, hr⟩ := Option.ne_none_iff_exists'.mp ho
  obtain ⟨hempty, htally, hbalanced⟩ := hend r hr
  have htoClose : w'.toClose [] = [] := by
    rw [World.toClose, hempty]
    rfl
  rw [htoClose] at htally
  refine ⟨fun h => ?_, fun h => ⟨(hbalanced h).closedAtMostOnce, fun x hx => ?_⟩⟩
  · have hle := h.1.length_le
    change _ + 0 = _ at htally
    omega
  · have honce := (hbalanced h).once x hx
    rw [World.account, htoClose, List.map_nil, List.append_nil] at honce
    exact List.count_pos_iff.mp (by omega)

/-- A child that outlives its wait: the callback closes both ends. -/
theorem waitPipes_closed_once_timeout :
    ∃ w', Runs World.move (runSession 1 [.wait 0 100]) oneChild (some (.ok ())) w' ∧
      ((handlerCloses w'.log = 0 → ClosedAtMostOnce w') ∧
        ((some (.ok ()) : Option (Except String Unit)) ≠ none →
          (ClosedOnce w' ↔ handlerCloses w'.log = 0))) ∧
      handlerCloses w'.log = 0 ∧ ClosedOnce w' := by
  have hruns : ∃ w', Runs World.move (runSession 1 [.wait 0 100]) oneChild (some (.ok ())) w' ∧
      handlerCloses w'.log = 0 :=
    exists_run_of_drive (acts [.ok, .ok, .ok, .ok, .ok, .ok, .fds 5 6, .ok, .ok, .ok, .ok, .ok,
      .ok, .ok, .ok]) _ (by decide)
  have hptys : PtysApart oneChild := by
    have hnone : ∀ s, oneChild.pty s = none := by
      intro s
      unfold World.pty oneChild
      dsimp only
      split <;> rfl
    exact ⟨fun s fd hs => by simp [hnone] at hs, fun s s' fd hs _ => by simp [hnone] at hs⟩
  obtain ⟨w', hrun, hhandler⟩ := hruns
  have hclosed := waitPipes_closed_once_iff 1 [.wait 0 100] rfl rfl rfl hptys hrun
  exact ⟨w', hrun, hclosed, hhandler, (hclosed.2 nofun).mpr hhandler⟩

/-- A child that exits during its wait: the handler closes the write end, and then the
callback closes the same number again. -/
theorem waitPipe_closed_again :
    ∃ w', Runs World.move (runSession 1 [.wait 0 1000]) oneChild (some (.ok ())) w' ∧
      .close .handler 6 (some (.waitWrite 0)) ∈ w'.log ∧
      .close .waitCleanup 6 none ∈ w'.log ∧ ¬ ClosedAtMostOnce w' := by
  have hruns : ∃ w', Runs World.move (runSession 1 [.wait 0 1000]) oneChild (some (.ok ())) w' ∧
      (decide (.close .handler 6 (some (.waitWrite 0)) ∈ w'.log),
        decide (.close .waitCleanup 6 none ∈ w'.log), decide (none ∈ closedEnds w'.log)) =
        (true, true, true) :=
    exists_run_of_drive (acts [.ok, .ok, .ok, .ok, .ok, .ok, .fds 5 6, .ok, .ok] ++
      [.move (.exit 100 (.exited 0)), .move .sigchld] ++ acts [.ok, .ok, .ok, .ok, .ok, .ok])
      (fun w : World => (decide (.close .handler 6 (some (.waitWrite 0)) ∈ w.log),
        decide (.close .waitCleanup 6 none ∈ w.log), decide (none ∈ closedEnds w.log)))
      (by decide)
  obtain ⟨w', hrun, hseen⟩ := hruns
  simp only [Prod.mk.injEq, decide_eq_true_eq] at hseen
  refine ⟨w', hrun, hseen.1, hseen.2.1, fun h => ?_⟩
  obtain ⟨⟨pipe, _, heq | heq⟩, _⟩ := h none hseen.2.2 <;> cases heq

end Processx
