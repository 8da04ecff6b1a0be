import Processx.Library.Descriptors
import Mathlib.Tactic.Common

/-!
# The descriptors of a new child

The descriptor loops of `processx__child_init()`, without a pty. The child moves the
files that were prepared for its slots to the numbers `0`, `1`, … and closes
everything else but the error pipe. The number of the error pipe is not protected
against the slots: it has to be outside of them.
-/

namespace Processx

open Posix

/-- An element of the `connections` list: `NULL`, a string or a connection object. -/
inductive Output
  | null
  | str (name : String)
  | connection
  deriving DecidableEq

/-- `pipes[i]`: the end of the parent and the end of the child, `none` for `-1`. -/
structure Pipe where
  parent : Option ℕ := none
  child : Option ℕ := none
  deriving DecidableEq

/-- The flags of the `open()` calls. -/
inductive OpenMode
  | readOnly
  | readWrite
  | append
  | truncate
  deriving DecidableEq

/-- The files of the child: those it got from the parent and those it opens itself. -/
inductive ChildFile
  | inherited (file : ℕ)
  | opened (fd : ℕ) (path : String) (mode : OpenMode)
  deriving DecidableEq

/-- The system calls that fail although their arguments are right, by slot. -/
structure Failures where
  dupfd : ℕ → Bool := fun _ => false
  openFile : ℕ → Bool := fun _ => false
  dup2 : ℕ → Bool := fun _ => false

/-- What the child knows of its slots. -/
structure Slots where
  connections : ℕ → Output
  pipes : ℕ → Pipe
  stdioCount : ℕ

/-- The table a forked child starts with. -/
def forked (table : Table ℕ) : Table ChildFile := table.map .inherited

/-- The first loop, for one slot: a source below its slot gets a new number. The result
is `none` when the child reports an error and kills itself. -/
def duplicateLow (fails : Failures) (stdioCount : ℕ) (s : Table ChildFile × (ℕ → Option ℕ))
    (fd : ℕ) : Option (Table ChildFile × (ℕ → Option ℕ)) :=
  match s.2 fd with
  | none => some s
  | some useFd =>
    if fd ≤ useFd then some s
    else if fails.dupfd fd then none
    else (s.1.dupFrom useFd stdioCount).map fun (newFd, table) =>
      (table, fun n => if n = fd then some newFd else s.2 n)

/-- The file a slot without a pipe opens. -/
def fileToOpen (fd : ℕ) : Output → ChildFile
  | .str name =>
    if fd = 0 then .opened fd name .readOnly
    else if name.toList.take 2 = ['>', '>'] then
      .opened fd (String.ofList (name.toList.drop 2)) .append
    else .opened fd name .truncate
  | _ => .opened fd "/dev/null" (if fd = 0 then .readOnly else .readWrite)

/-- `if (close_fd >= stdio_count) close(close_fd)`. -/
def closeExtra (stdioCount : ℕ) (table : Table ChildFile) : Option ℕ → Table ChildFile
  | none => table
  | some closeFd => if stdioCount ≤ closeFd then table.close closeFd else table

/-- The end of a round of the second loop: let `fd` refer to the file of `useFd`. -/
def useFor (fails : Failures) (stdioCount fd useFd : ℕ) (closeFd : Option ℕ)
    (table : Table ChildFile) : Option (Table ChildFile) :=
  if fd = useFd then some (closeExtra stdioCount (table.setCloexec useFd false) closeFd)
  else if fails.dup2 fd then none
  else (table.dup2 useFd fd).map fun table => closeExtra stdioCount table closeFd

/-- Is this the standard error, redirected to the standard output? -/
def Slots.IsRedirect (slots : Slots) (fd : ℕ) : Prop :=
  fd = 2 ∧ slots.connections fd = .str "2>&1"

instance (slots : Slots) (fd : ℕ) : Decidable (slots.IsRedirect fd) :=
  inferInstanceAs (Decidable (_ ∧ _))

/-- The second loop, for one slot. -/
def setupSlot (fails : Failures) (slots : Slots) (child : ℕ → Option ℕ) (table : Table ChildFile)
    (fd : ℕ) : Option (Table ChildFile) :=
  match child fd with
  | some useFd => useFor fails slots.stdioCount fd useFd (slots.pipes fd).parent table
  | none =>
    if slots.IsRedirect fd then
      useFor fails slots.stdioCount fd 1 (slots.pipes fd).parent table
    else if 3 ≤ fd then some table
    else if fails.openFile fd then none
    else
      let (useFd, table) := table.openFile (fileToOpen fd (slots.connections fd))
      useFor fails slots.stdioCount fd useFd (some useFd) table

/-- The third loop: close the sources that are not slots themselves. -/
def closeSources (stdioCount : ℕ) (child : ℕ → Option ℕ) (count : ℕ) (table : Table ChildFile) :
    Table ChildFile :=
  (List.range count).foldl (fun table fd => closeExtra stdioCount table (child fd)) table

/-- The last loop from `i` on: it ends at the first number above 200 that is not open. -/
def closeFrom : ℕ → ℕ → Table ChildFile → Table ChildFile
  | 0, _, table => table
  | rounds + 1, i, table =>
    if table.entry i = none ∧ 200 < i then table
    else closeFrom rounds (i + 1) (table.close i)

/-- The two last loops: close everything from the slots on but the error pipe. -/
def closeRest (stdioCount errorFd : ℕ) (table : Table ChildFile) : Table ChildFile :=
  let table := (List.range' stdioCount (errorFd - stdioCount)).foldl Table.close table
  closeFrom (table.bound + 201) (errorFd + 1) table

/-- The first three loops. -/
def moveToSlots (fails : Failures) (slots : Slots) (table : Table ChildFile) :
    Option (Table ChildFile) := do
  let (table, child) ← (List.range slots.stdioCount).foldlM
    (duplicateLow fails slots.stdioCount) (table, fun fd => (slots.pipes fd).child)
  let table ← (List.range slots.stdioCount).foldlM (setupSlot fails slots child) table
  some (closeSources slots.stdioCount child slots.stdioCount table)

/-- The descriptor loops of `processx__child_init()`. -/
def childInit (fails : Failures) (slots : Slots) (errorFd : ℕ) (table : Table ChildFile) :
    Option (Table ChildFile) :=
  (moveToSlots fails slots table).map (closeRest slots.stdioCount errorFd)

/-- What `processx_exec()` starts a child with: the ends of the child and the error pipe
are open, and the ends of the parent are sockets of their own. -/
structure Slots.Prepared (slots : Slots) (errorFd : ℕ) (table : Table ℕ) : Prop where
  stdio : 3 ≤ slots.stdioCount
  child_open : ∀ i < slots.stdioCount, ∀ fd, (slots.pipes i).child = some fd →
    table.entry fd ≠ none
  error_open : table.entry errorFd ≠ none
  parent_open : ∀ i < slots.stdioCount, ∀ fd, (slots.pipes i).parent = some fd →
    table.entry fd ≠ none
  parent_own : ∀ i < slots.stdioCount, ∀ fd, (slots.pipes i).parent = some fd →
    fd ≠ errorFd ∧ ∀ j < slots.stdioCount, (slots.pipes j).child ≠ some fd

/-- Does a number of the child refer to the file of a number of the parent? -/
def SameFile (before : Table ℕ) (fd : ℕ) (after : Table ChildFile) (fd' : ℕ) : Prop :=
  ∃ e e', before.entry fd = some e ∧ after.entry fd' = some e' ∧ e'.file = .inherited e.file

/-- The table the child should end up with. -/
structure Slots.Remapped (slots : Slots) (errorFd : ℕ) (before : Table ℕ)
    (after : Table ChildFile) : Prop where
  slot : ∀ i < slots.stdioCount, ∀ fd, (slots.pipes i).child = some fd →
    SameFile before fd after i ∧ (after.entry i).map Entry.cloexec = some false
  stderr : slots.IsRedirect 2 → (slots.pipes 2).child = none →
    ∃ e e', after.entry 1 = some e ∧ after.entry 2 = some e' ∧ e'.file = e.file
  error : SameFile before errorFd after errorFd

/-- Two numbers of the parent that refer to the same file. -/
def Shared (before : Table ℕ) (fd fd' : ℕ) : Prop :=
  (before.entry fd).map Entry.file = (before.entry fd').map Entry.file

/-- Slot `errorFd` ends up with the error pipe: its source is the error pipe, or it has
no source and is above the standard streams. -/
def Slots.HoldsError (slots : Slots) (errorFd : ℕ) (before : Table ℕ) : Prop :=
  match (slots.pipes errorFd).child with
  | some fd => Shared before fd errorFd
  | none =>
    if slots.IsRedirect errorFd then
      ∃ fd, (slots.pipes 1).child = some fd ∧ Shared before fd errorFd
    else 3 ≤ errorFd

/-- When the error pipe and the slots do not get into each other's way: the error pipe is
outside of the slots and no source of a slot; or it is in a slot that holds it anyway, and
no slot above it is in use. (A slot above it escapes only if it lies behind a number above
200 that is not open when the last loop starts, in the table `moved`.) -/
def Slots.ErrorFdApart (slots : Slots) (errorFd : ℕ) (before : Table ℕ)
    (moved : Table ChildFile) : Prop :=
  (slots.stdioCount ≤ errorFd ∧ ∀ i < slots.stdioCount, (slots.pipes i).child ≠ some errorFd) ∨
    (errorFd < slots.stdioCount ∧ slots.HoldsError errorFd before ∧
      (∀ i < slots.stdioCount, errorFd < i → (slots.pipes i).child ≠ none →
        ∃ gap, errorFd < gap ∧ 200 < gap ∧ gap < i ∧ moved.entry gap = none) ∧
      (slots.IsRedirect 2 → (slots.pipes 2).child = none → 2 ≤ errorFd))

variable {fails : Failures} {slots : Slots} {errorFd : ℕ}

/-- After the first loop every source is at its slot or above it, and still the same file. -/
structure Duplicated (slots : Slots) (before : Table ℕ) (fd : ℕ)
    (s : Table ChildFile × (ℕ → Option ℕ)) : Prop where
  keeps : ∀ n, before.entry n ≠ none → s.1.entry n = (forked before).entry n
  unused : ∀ i, (slots.pipes i).child = none → s.2 i = none
  later : ∀ i, fd ≤ i → s.2 i = (slots.pipes i).child
  source : ∀ i < fd, ∀ u, (slots.pipes i).child = some u → ∃ v, s.2 i = some v ∧ i ≤ v ∧
    (v = u ∨ u < i ∧ slots.stdioCount ≤ v ∧ before.entry v = none) ∧ SameFile before u s.1 v

/-- A number the parent has open keeps its file. -/
theorem sameFile_of_entry_eq {before : Table ℕ} {after : Table ChildFile} {fd : ℕ}
    (hopen : before.entry fd ≠ none) (h : after.entry fd = (forked before).entry fd) :
    SameFile before fd after fd := by
  obtain ⟨e, he⟩ := Option.ne_none_iff_exists'.mp hopen
  refine ⟨e, ⟨.inherited e.file, e.cloexec⟩, he, ?_, rfl⟩
  rw [h, forked, Table.entry_map, he]
  rfl

/-- What one round of the first loop does. -/
theorem Duplicated.step {before : Table ℕ} (hprep : slots.Prepared errorFd before) (fd : ℕ)
    (s s' : Table ChildFile × (ℕ → Option ℕ)) (hfd : fd < slots.stdioCount)
    (h : Duplicated slots before fd s)
    (hrun : duplicateLow fails slots.stdioCount s fd = some s') :
    Duplicated slots before (fd + 1) s' := by
  have hsame : s.2 fd = (slots.pipes fd).child := h.later fd (le_refl _)
  unfold duplicateLow at hrun
  cases hchild : s.2 fd with
  | none =>
    simp only [hchild, Option.some.injEq] at hrun
    subst hrun
    refine ⟨h.keeps, h.unused, fun i hi => h.later i (by omega), fun i hi u hu => ?_⟩
    rcases Nat.lt_succ_iff_lt_or_eq.mp hi with hlt | heq
    · exact h.source i hlt u hu
    · rw [heq, ← hsame, hchild] at hu
      cases hu
  | some useFd =>
    have hopen := hprep.child_open fd hfd useFd (by rw [← hsame, hchild])
    simp only [hchild] at hrun
    by_cases hle : fd ≤ useFd
    · rw [if_pos hle] at hrun
      have heq : s = s' := Option.some.inj hrun
      subst heq
      refine ⟨h.keeps, h.unused, fun i hi => h.later i (by omega), fun i hi u hu => ?_⟩
      rcases Nat.lt_succ_iff_lt_or_eq.mp hi with hlt | heq
      · exact h.source i hlt u hu
      · subst heq
        rw [← hsame, hchild] at hu
        obtain rfl := Option.some.inj hu
        exact ⟨useFd, hchild, hle, Or.inl rfl, sameFile_of_entry_eq hopen (h.keeps _ hopen)⟩
    · rw [if_neg hle] at hrun
      by_cases hfail : fails.dupfd fd = true
      · rw [if_pos hfail] at hrun
        cases hrun
      · rw [if_neg hfail, Option.map_eq_some_iff] at hrun
        obtain ⟨⟨newFd, table⟩, hdup, heq⟩ := hrun
        obtain ⟨e, he, hset⟩ := Option.map_eq_some_iff.mp hdup
        obtain ⟨hnew, htable⟩ := Prod.mk.inj hset
        have hfree := s.1.entry_lowestFree slots.stdioCount
        have hmin := s.1.le_lowestFree slots.stdioCount
        rw [hnew] at hfree hmin htable
        subst heq htable
        have hnone : before.entry newFd = none := by
          by_contra hused
          rw [h.keeps newFd hused, forked, Table.entry_map, Option.map_eq_none_iff] at hfree
          exact hused hfree
        have hkeep : ∀ n, s.1.entry n ≠ none → (s.1.set newFd ⟨e.file, false⟩).entry n =
            s.1.entry n := by
          intro n hn
          refine Table.entry_set_of_ne _ (fun heq => ?_) _
          rw [heq] at hn
          exact hn hfree
        refine ⟨fun n hn => ?_, fun i hi => ?_, fun i hi => ?_, fun i hi u hu => ?_⟩
        · rw [hkeep, h.keeps n hn]
          rw [h.keeps n hn, forked, Table.entry_map, ne_eq, Option.map_eq_none_iff]
          exact hn
        · have hne : i ≠ fd := by
            rintro rfl
            rw [hsame, hi] at hchild
            cases hchild
          dsimp only
          rw [if_neg hne]
          exact h.unused i hi
        · dsimp only
          rw [if_neg (by omega)]
          exact h.later i (by omega)
        · rcases Nat.lt_succ_iff_lt_or_eq.mp hi with hlt | heq
          · obtain ⟨v, hv, hle', hwhere, d, d', hd, hd', hfile⟩ := h.source i hlt u hu
            refine ⟨v, by dsimp only; rwa [if_neg (by omega)], hle', hwhere, d, d', hd, ?_, hfile⟩
            dsimp only
            rwa [hkeep v (by rw [hd']; simp)]
          · subst heq
            rw [← hsame, hchild] at hu
            obtain rfl := Option.some.inj hu
            refine ⟨newFd, if_pos rfl, by omega, Or.inr ⟨by omega, hmin, hnone⟩, ?_⟩
            obtain ⟨d, hd⟩ := Option.ne_none_iff_exists'.mp hopen
            have hfile := h.keeps useFd hopen
            rw [he, forked, Table.entry_map, hd, Option.map_some] at hfile
            refine ⟨d, _, hd, Table.entry_set_self _ _ _, ?_⟩
            rw [Option.some.inj hfile]

/-- Only the number to close can change, and only if it is not a slot. -/
theorem entry_closeExtra {stdioCount n : ℕ} {table : Table ChildFile} {closeFd : Option ℕ}
    (h : n < stdioCount ∨ closeFd ≠ some n) :
    (closeExtra stdioCount table closeFd).entry n = table.entry n := by
  cases closeFd with
  | none => rfl
  | some closeFd =>
    by_cases hle : stdioCount ≤ closeFd
    · have hne : n ≠ closeFd := by
        rintro rfl
        rcases h with hlt | hne
        · omega
        · exact hne rfl
      rw [closeExtra, if_pos hle, Table.entry_close_of_ne _ hne]
    · rw [closeExtra, if_neg hle]

/-- The end of a round installs the file in the slot and leaves the rest alone. -/
theorem useFor_spec {stdioCount fd useFd : ℕ} {closeFd : Option ℕ} {table table' : Table ChildFile}
    {e : Entry ChildFile} (hfd : fd < stdioCount) (hopen : table.entry useFd = some e)
    (hrun : useFor fails stdioCount fd useFd closeFd table = some table') :
    table'.entry fd = some ⟨e.file, false⟩ ∧
      ∀ n, n ≠ fd → n < stdioCount ∨ closeFd ≠ some n → table'.entry n = table.entry n := by
  have hset : closeExtra stdioCount (table.set fd ⟨e.file, false⟩) closeFd = table' := by
    unfold useFor at hrun
    by_cases heq : fd = useFd
    · subst heq
      rw [if_pos rfl, Table.entry_setCloexec _ hopen] at hrun
      exact Option.some.inj hrun
    · rw [if_neg heq] at hrun
      by_cases hfail : fails.dup2 fd = true
      · rw [if_pos hfail] at hrun
        cases hrun
      · rw [if_neg hfail, Table.dup2, hopen] at hrun
        exact Option.some.inj hrun
  subst hset
  constructor
  · rw [entry_closeExtra (Or.inl hfd), Table.entry_set_self]
  · intro n hne hkept
    rw [entry_closeExtra hkept, Table.entry_set_of_ne _ hne]

/-- What the sources are before the second loop: open, at their slot or above it, and
no end of the parent. -/
def Slots.SourcesReady (slots : Slots) (child : ℕ → Option ℕ) (start : Table ChildFile) : Prop :=
  ∀ i < slots.stdioCount, ∀ v, child i = some v →
    i ≤ v ∧ start.entry v ≠ none ∧ ∀ j < slots.stdioCount, (slots.pipes j).parent ≠ some v

/-- The table before round `fd` of the second loop: the slots below are set up, and the
rest is as it was. -/
structure SetUp (slots : Slots) (child : ℕ → Option ℕ) (start : Table ChildFile) (fd : ℕ)
    (table : Table ChildFile) : Prop where
  untouched : ∀ n, start.entry n ≠ none → fd ≤ n ∨ 3 ≤ n ∧ child n = none →
    (∀ i < slots.stdioCount, (slots.pipes i).parent ≠ some n) → table.entry n = start.entry n
  slot : ∀ i < fd, ∀ v, child i = some v →
    ∃ e, start.entry v = some e ∧ table.entry i = some ⟨e.file, false⟩
  redirect : 2 < fd → slots.IsRedirect 2 → child 2 = none →
    ∃ e, table.entry 1 = some e ∧ table.entry 2 = some ⟨e.file, false⟩
  opened : ∀ i < fd, i < 3 → child i = none → ¬slots.IsRedirect i →
    ∃ e, table.entry i = some e ∧ e.file = fileToOpen i (slots.connections i)

/-- A round that sets up its slot and leaves the other open numbers alone. -/
theorem SetUp.next {child : ℕ → Option ℕ} {start table table' : Table ChildFile} {fd : ℕ}
    (hfd : fd < slots.stdioCount) (h : SetUp slots child start fd table)
    (hused : fd < 3 ∨ child fd ≠ none)
    (hround : ∀ n, n ≠ fd → table.entry n ≠ none →
      n < slots.stdioCount ∨ (slots.pipes fd).parent ≠ some n → table'.entry n = table.entry n)
    (hslot : ∀ v, child fd = some v →
      ∃ e, start.entry v = some e ∧ table'.entry fd = some ⟨e.file, false⟩)
    (hredirect : slots.IsRedirect fd → child fd = none →
      ∃ e, table'.entry 1 = some e ∧ table'.entry fd = some ⟨e.file, false⟩)
    (hopened : fd < 3 → child fd = none → ¬slots.IsRedirect fd →
      ∃ e, table'.entry fd = some e ∧ e.file = fileToOpen fd (slots.connections fd)) :
    SetUp slots child start (fd + 1) table' := by
  have hkeep : ∀ {n : ℕ} {e : Entry ChildFile}, n < fd → table.entry n = some e →
      table'.entry n = some e := by
    intro n e hlt hn
    rw [hround n (by omega) (by rw [hn]; simp) (Or.inl (by omega)), hn]
  constructor
  · intro n hopen hwhere hparent
    have hne : n ≠ fd := by
      rintro rfl
      rcases hwhere with hle | ⟨hle, hnone⟩
      · omega
      · rcases hused with hlt | hsome
        · omega
        · exact hsome hnone
    have hsame := h.untouched n hopen (hwhere.imp_left (by omega)) hparent
    rw [hround n hne (by rwa [hsame]) (Or.inr (hparent fd hfd)), hsame]
  · intro i hi v hv
    rcases Nat.lt_succ_iff_lt_or_eq.mp hi with hlt | heq
    · obtain ⟨e, he, hentry⟩ := h.slot i hlt v hv
      exact ⟨e, he, hkeep hlt hentry⟩
    · rw [heq] at hv ⊢
      exact hslot v hv
  · intro hlt hred hnone
    rcases Nat.lt_succ_iff_lt_or_eq.mp hlt with hlt | heq
    · obtain ⟨e, hone, htwo⟩ := h.redirect hlt hred hnone
      exact ⟨e, hkeep (by omega) hone, hkeep hlt htwo⟩
    · subst heq
      exact hredirect hred hnone
  · intro i hi hlt hnone hred
    rcases Nat.lt_succ_iff_lt_or_eq.mp hi with hlt' | heq
    · obtain ⟨e, hentry, hfile⟩ := h.opened i hlt' hlt hnone hred
      exact ⟨e, hkeep hlt' hentry, hfile⟩
    · subst heq
      exact hopened hlt hnone hred

/-- What one round of the second loop does. -/
theorem SetUp.step {child : ℕ → Option ℕ} {start : Table ChildFile}
    (hready : slots.SourcesReady child start) (fd : ℕ)
    (table table' : Table ChildFile) (hfd : fd < slots.stdioCount)
    (h : SetUp slots child start fd table)
    (hrun : setupSlot fails slots child table fd = some table') :
    SetUp slots child start (fd + 1) table' := by
  unfold setupSlot at hrun
  cases hchild : child fd with
  | some useFd =>
    rw [hchild] at hrun
    obtain ⟨hle, hopen, hparent⟩ := hready fd hfd useFd hchild
    obtain ⟨e, he⟩ := Option.ne_none_iff_exists'.mp hopen
    have hsource : table.entry useFd = some e := by
      rw [h.untouched useFd hopen (Or.inl hle) hparent, he]
    obtain ⟨hset, hrest⟩ := useFor_spec hfd hsource hrun
    refine h.next hfd (Or.inr (by rw [hchild]; simp)) (fun n hne _ => hrest n hne)
      (fun v hv => ?_) (fun _ hnone => ?_) (fun _ hnone => ?_)
    · rw [hchild] at hv
      obtain rfl := Option.some.inj hv
      exact ⟨e, he, hset⟩
    · rw [hchild] at hnone
      cases hnone
    · rw [hchild] at hnone
      cases hnone
  | none =>
    simp only [hchild] at hrun
    by_cases hred : slots.IsRedirect fd
    · -- the standard error takes the file of the standard output, which is set up already
      rw [if_pos hred] at hrun
      have htwo : fd = 2 := hred.1
      obtain ⟨e, hone⟩ : ∃ e, table.entry 1 = some e := by
        cases hchild₁ : child 1 with
        | some v =>
          obtain ⟨e, _, hentry⟩ := h.slot 1 (by omega) v hchild₁
          exact ⟨_, hentry⟩
        | none =>
          obtain ⟨e, hentry, _⟩ := h.opened 1 (by omega) (by omega) hchild₁ (fun hr => by
            have hone := hr.1
            omega)
          exact ⟨e, hentry⟩
      obtain ⟨hset, hrest⟩ := useFor_spec hfd hone hrun
      refine h.next hfd (Or.inl (by omega)) (fun n hne _ => hrest n hne)
        (fun v hv => ?_) (fun _ _ => ?_) (fun _ _ hnot => absurd hred hnot)
      · rw [hchild] at hv
        cases hv
      · refine ⟨e, ?_, hset⟩
        rw [hrest 1 (by omega) (Or.inl (by omega)), hone]
    · rw [if_neg hred] at hrun
      by_cases hextra : 3 ≤ fd
      · rw [if_pos hextra] at hrun
        obtain rfl := Option.some.inj hrun
        refine ⟨fun n hopen hwhere => h.untouched n hopen (hwhere.imp_left (by omega)),
          fun i hi v hv => ?_, fun _ => h.redirect (by omega),
          fun i _ hlt => h.opened i (by omega) hlt⟩
        have hne : i ≠ fd := by
          rintro rfl
          rw [hchild] at hv
          cases hv
        exact h.slot i (by omega) v hv
      · rw [if_neg hextra] at hrun
        by_cases hfail : fails.openFile fd = true
        · rw [if_pos hfail] at hrun
          cases hrun
        · rw [if_neg hfail] at hrun
          have hfree := table.entry_lowestFree 0
          simp only [Table.openFile] at hrun
          generalize table.lowestFree 0 = useFd at hfree hrun
          obtain ⟨hset, hrest⟩ := useFor_spec hfd (Table.entry_set_self _ _ _) hrun
          refine h.next hfd (Or.inl (by omega)) (fun n hne hopen hkept => ?_)
            (fun v hv => ?_) (fun hr => absurd hr hred) (fun _ _ _ => ⟨_, hset, rfl⟩)
          · have hnew : n ≠ useFd := by
              rintro rfl
              exact hopen hfree
            rw [hrest n hne (Or.inr fun heq => hnew (Option.some.inj heq).symm),
              Table.entry_set_of_ne _ hnew]
          · rw [hchild] at hv
            cases hv

/-- The third loop closes the sources that are not slots, and nothing else. -/
theorem entry_closeSources {stdioCount : ℕ} {child : ℕ → Option ℕ} {count n : ℕ}
    {table : Table ChildFile} :
    (closeSources stdioCount child count table).entry n =
      if stdioCount ≤ n ∧ ∃ i < count, child i = some n then none else table.entry n := by
  induction count with
  | zero => simp [closeSources]
  | succ count ih =>
    rw [closeSources, List.range_succ, List.foldl_append, ← closeSources]
    by_cases hlast : child count = some n
    · by_cases hle : stdioCount ≤ n
      · rw [if_pos ⟨hle, count, Nat.lt_succ_self _, hlast⟩]
        simp [hlast, closeExtra, hle]
      · rw [if_neg (fun h => hle h.1)]
        rw [if_neg (fun h => hle h.1)] at ih
        rw [List.foldl_cons, List.foldl_nil, entry_closeExtra (Or.inl (by omega)), ih]
    · rw [List.foldl_cons, List.foldl_nil, entry_closeExtra (Or.inr hlast), ih]
      have hiff : (∃ i < count + 1, child i = some n) ↔ ∃ i < count, child i = some n := by
        constructor
        · rintro ⟨i, hi, hv⟩
          rcases Nat.lt_succ_iff_lt_or_eq.mp hi with hlt | heq
          · exact ⟨i, hlt, hv⟩
          · rw [heq] at hv
            exact absurd hv hlast
        · rintro ⟨i, hi, hv⟩
          exact ⟨i, by omega, hv⟩
      simp only [hiff]

open Classical in
/-- The last loop closes everything up to the first number above 200 that is not open,
once it has rounds for all numbers in use. -/
theorem entry_closeFrom {rounds i n : ℕ} {table : Table ChildFile}
    (hrounds : table.bound ≤ i + rounds) :
    (closeFrom rounds i table).entry n =
      if n < i ∨ ∃ gap, i ≤ gap ∧ 200 < gap ∧ gap < n ∧ table.entry gap = none
      then table.entry n else none := by
  induction rounds generalizing i table with
  | zero =>
    rw [closeFrom]
    by_cases hlt : n < i
    · rw [if_pos (Or.inl hlt)]
    · rw [table.entry_of_bound_le n (by omega)]
      exact (ite_self none).symm
  | succ rounds ih =>
    rw [closeFrom]
    by_cases hbreak : table.entry i = none ∧ 200 < i
    · rw [if_pos hbreak]
      rcases Nat.lt_trichotomy n i with hlt | heq | hgt
      · rw [if_pos (Or.inl hlt)]
      · rw [heq, hbreak.1]
        exact (ite_self none).symm
      · rw [if_pos (Or.inr ⟨i, le_refl _, hbreak.2, hgt, hbreak.1⟩)]
    · have hclosed : (table.close i).bound ≤ i + 1 + rounds := by
        change table.bound ≤ i + 1 + rounds
        omega
      rw [if_neg hbreak, ih hclosed]
      rcases Nat.lt_trichotomy n i with hlt | heq | hgt
      · rw [if_pos (Or.inl (by omega)), if_pos (Or.inl hlt), Table.entry_close_of_ne _ (by omega)]
      · subst heq
        have hno : ¬(n < n ∨ ∃ gap, n ≤ gap ∧ 200 < gap ∧ gap < n ∧ table.entry gap = none) := by
          rintro (hlt | ⟨gap, hle, _, hlt, _⟩) <;> omega
        rw [if_pos (Or.inl (by omega)), if_neg hno, Table.entry_close_self]
      · -- the number just closed is no gap the loop has passed
        have hiff : (n < i + 1 ∨ ∃ gap, i + 1 ≤ gap ∧ 200 < gap ∧ gap < n ∧
            (table.close i).entry gap = none) ↔
            (n < i ∨ ∃ gap, i ≤ gap ∧ 200 < gap ∧ gap < n ∧ table.entry gap = none) := by
          constructor
          · rintro (hlt | ⟨gap, hle, hbig, hlt, hnone⟩)
            · omega
            · rw [Table.entry_close_of_ne _ (by omega)] at hnone
              exact Or.inr ⟨gap, by omega, hbig, hlt, hnone⟩
          · rintro (hlt | ⟨gap, hle, hbig, hlt, hnone⟩)
            · omega
            · have hne : gap ≠ i := by
                rintro rfl
                exact hbreak ⟨hnone, hbig⟩
              refine Or.inr ⟨gap, by omega, hbig, hlt, ?_⟩
              rw [Table.entry_close_of_ne _ hne, hnone]
        rw [Table.entry_close_of_ne _ (by omega)]
        simp only [hiff]

/-- Closing a range leaves the numbers outside of it alone. -/
theorem entry_foldl_close {start length n : ℕ} (h : n < start ∨ start + length ≤ n)
    (table : Table ChildFile) :
    ((List.range' start length).foldl Table.close table).entry n = table.entry n := by
  induction length generalizing start table with
  | zero => rfl
  | succ length ih =>
    rw [List.range'_succ, List.foldl_cons, ih (by omega), Table.entry_close_of_ne _ (by omega)]

/-- It needs no more numbers. -/
theorem bound_foldl_close (numbers : List ℕ) (table : Table ChildFile) :
    (numbers.foldl Table.close table).bound = table.bound := by
  induction numbers generalizing table with
  | nil => rfl
  | cons n numbers ih => exact ih (table.close n)

open Classical in
/-- The two last loops, seen from a slot or from the error pipe. -/
theorem entry_closeRest {stdioCount errorFd n : ℕ} {table : Table ChildFile}
    (hn : n < stdioCount ∨ n = errorFd) :
    (closeRest stdioCount errorFd table).entry n =
      if n ≤ errorFd ∨ ∃ gap, errorFd < gap ∧ 200 < gap ∧ gap < n ∧ table.entry gap = none
      then table.entry n else none := by
  have hgap : ∀ gap, errorFd < gap →
      ((List.range' stdioCount (errorFd - stdioCount)).foldl Table.close table).entry gap =
        table.entry gap := fun gap hlt => entry_foldl_close (by omega) table
  have hiff : (n < errorFd + 1 ∨ ∃ gap, errorFd + 1 ≤ gap ∧ 200 < gap ∧ gap < n ∧
      ((List.range' stdioCount (errorFd - stdioCount)).foldl Table.close table).entry gap = none) ↔
      (n ≤ errorFd ∨ ∃ gap, errorFd < gap ∧ 200 < gap ∧ gap < n ∧ table.entry gap = none) := by
    constructor
    · rintro (hlt | ⟨gap, hle, hbig, hlt, hnone⟩)
      · exact Or.inl (by omega)
      · exact Or.inr ⟨gap, hle, hbig, hlt, by rwa [hgap gap hle] at hnone⟩
    · rintro (hle | ⟨gap, hle, hbig, hlt, hnone⟩)
      · exact Or.inl (by omega)
      · exact Or.inr ⟨gap, hle, hbig, hlt, by rwa [hgap gap hle]⟩
  unfold closeRest
  rw [entry_closeFrom (by rw [bound_foldl_close]; omega), entry_foldl_close (by omega)]
  simp only [hiff]

/-- What the first three loops leave in the slots and at the error pipe. -/
structure Moved (slots : Slots) (errorFd : ℕ) (before : Table ℕ) (moved : Table ChildFile) :
    Prop where
  slot : ∀ i < slots.stdioCount, ∀ fd, (slots.pipes i).child = some fd →
    ∃ e, before.entry fd = some e ∧ moved.entry i = some ⟨.inherited e.file, false⟩
  redirect : slots.IsRedirect 2 → (slots.pipes 2).child = none →
    ∃ e, moved.entry 1 = some e ∧ moved.entry 2 = some ⟨e.file, false⟩
  opened : ∀ i < 3, (slots.pipes i).child = none → ¬slots.IsRedirect i →
    ∃ e, moved.entry i = some e ∧ e.file = fileToOpen i (slots.connections i)
  unused : 3 ≤ errorFd → errorFd < slots.stdioCount → (slots.pipes errorFd).child = none →
    moved.entry errorFd = (forked before).entry errorFd
  source : slots.stdioCount ≤ errorFd →
    (∃ i < slots.stdioCount, (slots.pipes i).child = some errorFd) → moved.entry errorFd = none
  outside : slots.stdioCount ≤ errorFd →
    (∀ i < slots.stdioCount, (slots.pipes i).child ≠ some errorFd) →
    moved.entry errorFd = (forked before).entry errorFd

/-- Where a source of the second loop comes from. -/
theorem Duplicated.exists_source {before : Table ℕ} {count i v : ℕ}
    {s : Table ChildFile × (ℕ → Option ℕ)} (h : Duplicated slots before count s) (hi : i < count)
    (hv : s.2 i = some v) :
    ∃ u, (slots.pipes i).child = some u ∧ i ≤ v ∧
      (v = u ∨ u < i ∧ slots.stdioCount ≤ v ∧ before.entry v = none) ∧ SameFile before u s.1 v := by
  obtain ⟨u, hu⟩ : ∃ u, (slots.pipes i).child = some u := by
    refine Option.ne_none_iff_exists'.mp fun hnone => ?_
    rw [h.unused i hnone] at hv
    cases hv
  obtain ⟨v', hv', hsource⟩ := h.source i hi u hu
  rw [hv] at hv'
  obtain rfl := Option.some.inj hv'
  exact ⟨u, hu, hsource⟩

/-- The sources are ready after the first loop. -/
theorem Duplicated.sourcesReady {before : Table ℕ} {s : Table ChildFile × (ℕ → Option ℕ)}
    (hprep : slots.Prepared errorFd before) (h : Duplicated slots before slots.stdioCount s) :
    slots.SourcesReady s.2 s.1 := by
  intro i hi v hv
  obtain ⟨u, hu, hle, hwhere, e, e', he, he', _⟩ := h.exists_source hi hv
  refine ⟨hle, by rw [he']; simp, fun j hj hparent => ?_⟩
  rcases hwhere with heq | ⟨_, _, hnone⟩
  · rw [heq] at hparent
    exact (hprep.parent_own j hj u hparent).2 i hi hu
  · exact hprep.parent_open j hj v hparent hnone

/-- The first three loops move every file to its slot. -/
theorem moveToSlots_spec {before : Table ℕ} {moved : Table ChildFile}
    (hprep : slots.Prepared errorFd before)
    (hrun : moveToSlots fails slots (forked before) = some moved) :
    Moved slots errorFd before moved := by
  obtain ⟨⟨start, child⟩, hdup, hrest⟩ := Option.bind_eq_some_iff.mp hrun
  obtain ⟨table, hsetup, heq⟩ := Option.bind_eq_some_iff.mp hrest
  have hmoved := Option.some.inj heq
  have h₁ : Duplicated slots before slots.stdioCount (start, child) := by
    refine foldlM_range_invariant (Duplicated slots before) (Duplicated.step hprep) ?_ hdup
    exact ⟨fun _ _ => rfl, fun _ h => h, fun _ _ => rfl, fun i hi => by omega⟩
  have hready := h₁.sourcesReady hprep
  have h₂ : SetUp slots child start slots.stdioCount table := by
    refine foldlM_range_invariant (SetUp slots child start) (SetUp.step hready) ?_ hsetup
    exact ⟨fun _ _ _ _ => rfl, fun i hi => by omega, fun h => by omega, fun i hi => by omega⟩
  have hstdio := hprep.stdio
  have hslot : ∀ n < slots.stdioCount, moved.entry n = table.entry n := by
    intro n hn
    rw [← hmoved, entry_closeSources, if_neg (by omega)]
  have herror : start.entry errorFd = (forked before).entry errorFd :=
    h₁.keeps errorFd hprep.error_open
  have huntouched : slots.stdioCount ≤ errorFd ∨ 3 ≤ errorFd ∧ child errorFd = none →
      table.entry errorFd = (forked before).entry errorFd := by
    intro hwhere
    rw [h₂.untouched errorFd ?_ hwhere
      fun i hi heq => (hprep.parent_own i hi errorFd heq).1 rfl, herror]
    rw [herror, forked, Table.entry_map, ne_eq, Option.map_eq_none_iff]
    exact hprep.error_open
  have hsource : ∀ i < slots.stdioCount, slots.stdioCount ≤ errorFd →
      (child i = some errorFd ↔ (slots.pipes i).child = some errorFd) := by
    intro i hi hle
    constructor
    · intro hchild
      obtain ⟨u, hu, _, hwhere, _⟩ := h₁.exists_source hi hchild
      rcases hwhere with heq | ⟨_, _, hnone⟩
      · rw [hu, ← heq]
      · exact absurd hnone hprep.error_open
    · intro hchild
      obtain ⟨v, hv, _, hwhere, _⟩ := h₁.source i hi errorFd hchild
      rcases hwhere with heq | ⟨hlt, _⟩
      · rwa [heq] at hv
      · omega
  constructor
  · intro i hi fd hfd
    obtain ⟨v, hv, _, _, e, e', he, he', hfile⟩ := h₁.source i hi fd hfd
    obtain ⟨d, hd, hentry⟩ := h₂.slot i hi v hv
    rw [he'] at hd
    refine ⟨e, he, ?_⟩
    rw [hslot i hi, hentry, ← Option.some.inj hd, hfile]
  · intro hred hnone
    rw [hslot 1 (by omega), hslot 2 (by omega)]
    exact h₂.redirect (by omega) hred (h₁.unused 2 hnone)
  · intro i hi hnone hred
    rw [hslot i (by omega)]
    exact h₂.opened i (by omega) hi (h₁.unused i hnone) hred
  · intro hle hlt hnone
    rw [hslot errorFd hlt]
    exact huntouched (Or.inr ⟨hle, h₁.unused errorFd hnone⟩)
  · rintro hle ⟨i, hi, hchild⟩
    rw [← hmoved, entry_closeSources, if_pos ⟨hle, i, hi, (hsource i hi hle).mpr hchild⟩]
  · intro hle hno
    rw [← hmoved, entry_closeSources, if_neg, huntouched (Or.inl hle)]
    rintro ⟨_, i, hi, hchild⟩
    exact hno i hi ((hsource i hi hle).mp hchild)

/-- A file the child opens is none that it got from the parent. -/
theorem not_sameFile_of_opened (before : Table ℕ) (fd : ℕ) {after : Table ChildFile} {fd' i : ℕ}
    {e : Entry ChildFile} (hentry : after.entry fd' = some e)
    (hfile : e.file = fileToOpen i (slots.connections i)) : ¬SameFile before fd after fd' := by
  rintro ⟨d, d', _, hd', hinherited⟩
  rw [hentry] at hd'
  obtain rfl := Option.some.inj hd'
  rw [hfile] at hinherited
  cases hout : slots.connections i with
  | str name =>
    rw [hout, fileToOpen] at hinherited
    split_ifs at hinherited
  | null => simp [hout, fileToOpen] at hinherited
  | connection => simp [hout, fileToOpen] at hinherited

/-- Slot `errorFd` refers to the error pipe exactly if it holds it anyway. -/
theorem Moved.sameFile_iff {before : Table ℕ} {moved : Table ChildFile}
    (hprep : slots.Prepared errorFd before) (h : Moved slots errorFd before moved)
    (hin : errorFd < slots.stdioCount) :
    SameFile before errorFd moved errorFd ↔ slots.HoldsError errorFd before := by
  obtain ⟨e, he⟩ := Option.ne_none_iff_exists'.mp hprep.error_open
  have hstdio := hprep.stdio
  have hshared : ∀ {fd : ℕ} {d : Entry ℕ} {d' : Entry ChildFile}, before.entry fd = some d →
      moved.entry errorFd = some d' → d'.file = .inherited d.file →
      (SameFile before errorFd moved errorFd ↔ Shared before fd errorFd) := by
    intro fd d d' hd hentry hfile
    rw [SameFile, Shared, hd, he, hentry]
    simp [hfile, eq_comm]
  unfold Slots.HoldsError
  cases hchild : (slots.pipes errorFd).child with
  | some fd =>
    obtain ⟨d, hd, hentry⟩ := h.slot errorFd hin fd hchild
    exact hshared hd hentry rfl
  | none =>
    by_cases hred : slots.IsRedirect errorFd
    · obtain rfl := hred.1
      simp only [if_pos hred]
      obtain ⟨d, hone, htwo⟩ := h.redirect hred hchild
      cases hchild₁ : (slots.pipes 1).child with
      | some fd =>
        obtain ⟨d', hd', hentry⟩ := h.slot 1 (by omega) fd hchild₁
        rw [hone] at hentry
        obtain rfl := Option.some.inj hentry
        rw [hshared hd' htwo rfl]
        simp
      | none =>
        have hnot : ¬slots.IsRedirect 1 := fun hr => by
          have hone := hr.1
          omega
        obtain ⟨d', hentry, hfile⟩ := h.opened 1 (by omega) hchild₁ hnot
        rw [hone] at hentry
        obtain rfl := Option.some.inj hentry
        have hnot := not_sameFile_of_opened before 2 htwo hfile
        simp [hnot]
    · simp only [if_neg hred]
      by_cases hextra : 3 ≤ errorFd
      · have hsame := sameFile_of_entry_eq hprep.error_open (h.unused hextra hin hchild)
        exact ⟨fun _ => hextra, fun _ => hsame⟩
      · obtain ⟨d, hentry, hfile⟩ := h.opened errorFd (by omega) hchild hred
        have hnot := not_sameFile_of_opened before errorFd hentry hfile
        exact ⟨fun hsame => absurd hsame hnot, fun hle => absurd hle hextra⟩

/-- The last loops leave alone what is not above the error pipe, and what lies behind a gap. -/
theorem entry_closeRest_of_kept {stdioCount n : ℕ} {table : Table ChildFile}
    (hn : n < stdioCount ∨ n = errorFd)
    (hkept : n ≤ errorFd ∨ ∃ gap, errorFd < gap ∧ 200 < gap ∧ gap < n ∧ table.entry gap = none) :
    (closeRest stdioCount errorFd table).entry n = table.entry n := by
  rw [entry_closeRest hn, if_pos hkept]

/-- A slot above the error pipe that is still open lies behind a gap. -/
theorem gap_of_entry_closeRest {stdioCount n : ℕ} {table : Table ChildFile} (hn : n < stdioCount)
    (hlt : errorFd < n) (hopen : (closeRest stdioCount errorFd table).entry n ≠ none) :
    ∃ gap, errorFd < gap ∧ 200 < gap ∧ gap < n ∧ table.entry gap = none := by
  by_contra hno
  rw [entry_closeRest (Or.inl hn), if_neg] at hopen
  · exact hopen rfl
  · rintro (hle | hyes)
    · omega
    · exact hno hyes

/-- If the child ends up with the right table, slots and error pipe were apart. -/
theorem Moved.errorFdApart {before : Table ℕ} {moved : Table ChildFile}
    (hprep : slots.Prepared errorFd before) (h : Moved slots errorFd before moved)
    (hremapped : slots.Remapped errorFd before (closeRest slots.stdioCount errorFd moved)) :
    slots.ErrorFdApart errorFd before moved := by
  have hstdio := hprep.stdio
  have hfile : SameFile before errorFd moved errorFd := by
    have herror := hremapped.error
    rwa [SameFile, entry_closeRest_of_kept (Or.inr rfl) (Or.inl (le_refl _))] at herror
  by_cases hin : errorFd < slots.stdioCount
  · refine Or.inr ⟨hin, (h.sameFile_iff hprep hin).mp hfile, fun i hi hlt hchild => ?_,
      fun hred hnone => ?_⟩
    · obtain ⟨fd, hfd⟩ := Option.ne_none_iff_exists'.mp hchild
      obtain ⟨⟨e, e', _, he', _⟩, _⟩ := hremapped.slot i hi fd hfd
      exact gap_of_entry_closeRest hi hlt (by rw [he']; simp)
    · by_contra hlow
      obtain ⟨e, e', _, htwo, _⟩ := hremapped.stderr hred hnone
      obtain ⟨gap, _, hbig, hlt, _⟩ := gap_of_entry_closeRest (show 2 < slots.stdioCount by omega)
        (show errorFd < 2 by omega) (by rw [htwo]; simp)
      omega
  · refine Or.inl ⟨by omega, fun i hi hchild => ?_⟩
    obtain ⟨e, e', _, he', _⟩ := hfile
    rw [h.source (by omega) ⟨i, hi, hchild⟩] at he'
    cases he'

/-- If slots and error pipe are apart, the child ends up with the right table. -/
theorem Moved.remapped {before : Table ℕ} {moved : Table ChildFile}
    (hprep : slots.Prepared errorFd before) (h : Moved slots errorFd before moved)
    (hapart : slots.ErrorFdApart errorFd before moved) :
    slots.Remapped errorFd before (closeRest slots.stdioCount errorFd moved) := by
  have hstdio := hprep.stdio
  constructor
  · intro i hi fd hfd
    have hkept : (closeRest slots.stdioCount errorFd moved).entry i = moved.entry i := by
      refine entry_closeRest_of_kept (Or.inl hi) ?_
      rcases hapart with ⟨hout, _⟩ | ⟨_, _, hgaps, _⟩
      · exact Or.inl (by omega)
      · by_cases hle : i ≤ errorFd
        · exact Or.inl hle
        · exact Or.inr (hgaps i hi (by omega) (by rw [hfd]; simp))
    obtain ⟨e, he, hentry⟩ := h.slot i hi fd hfd
    rw [← hkept] at hentry
    refine ⟨⟨e, _, he, hentry, rfl⟩, ?_⟩
    rw [hentry]
    rfl
  · intro hred hnone
    have hbelow : 2 ≤ errorFd := by
      rcases hapart with ⟨hout, _⟩ | ⟨_, _, _, hlow⟩
      · omega
      · exact hlow hred hnone
    obtain ⟨e, hone, htwo⟩ := h.redirect hred hnone
    refine ⟨e, ⟨e.file, false⟩, ?_, ?_, rfl⟩
    · rw [entry_closeRest_of_kept (Or.inl (by omega)) (Or.inl (by omega)), hone]
    · rw [entry_closeRest_of_kept (Or.inl (by omega)) (Or.inl hbelow), htwo]
  · rw [SameFile, entry_closeRest_of_kept (Or.inr rfl) (Or.inl (le_refl _))]
    rcases hapart with ⟨hout, hno⟩ | ⟨hin, hholds, _⟩
    · exact sameFile_of_entry_eq hprep.error_open (h.outside hout hno)
    · exact (h.sameFile_iff hprep hin).mpr hholds

/-- **The slots and the error pipe.** The loops set up every slot and keep the error
pipe exactly if the two do not get into each other's way. -/
theorem childInit_remapped_iff {before : Table ℕ} {moved after : Table ChildFile}
    (hprep : slots.Prepared errorFd before)
    (hmove : moveToSlots fails slots (forked before) = some moved)
    (hrun : childInit fails slots errorFd (forked before) = some after) :
    slots.Remapped errorFd before after ↔ slots.ErrorFdApart errorFd before moved := by
  have h := moveToSlots_spec hprep hmove
  rw [childInit, hmove] at hrun
  obtain rfl := Option.some.inj hrun
  exact ⟨h.errorFdApart hprep, h.remapped hprep⟩

/-- A parent that has the first `count` numbers open. -/
def openBelow (count : ℕ) : Table ℕ where
  entry n := if n < count then some ⟨n, true⟩ else none
  bound := count
  entry_of_bound_le n hn := if_neg (by omega)

/-- A pipe, a file, a redirected standard error and an inherited connection, with the
error pipe right behind them. -/
theorem childInit_remapped_outside :
    let slots : Slots :=
      { connections := fun i => [.str "|", .str "log", .str "2>&1", .connection].getD i .null
        pipes := fun i => [⟨some 5, some 6⟩, {}, {}, ⟨none, some 1⟩].getD i {}
        stdioCount := 4 }
    ∃ moved after, moveToSlots {} slots (forked (openBelow 7)) = some moved ∧
      childInit {} slots 4 (forked (openBelow 7)) = some after ∧
      (slots.Remapped 4 (openBelow 7) after ↔ slots.ErrorFdApart 4 (openBelow 7) moved) ∧
      slots.ErrorFdApart 4 (openBelow 7) moved := by
  intro slots
  have hchild : ∀ i < 4, ∀ fd ∈ (slots.pipes i).child, (openBelow 7).entry fd ≠ none := by decide
  have hparent : ∀ i < 4, ∀ fd ∈ (slots.pipes i).parent, (openBelow 7).entry fd ≠ none ∧
      fd ≠ 4 ∧ ∀ j < 4, (slots.pipes j).child ≠ some fd := by decide
  have hprep : slots.Prepared 4 (openBelow 7) :=
    ⟨by decide, hchild, by decide, fun i hi fd hfd => (hparent i hi fd hfd).1,
      fun i hi fd hfd => (hparent i hi fd hfd).2⟩
  obtain ⟨moved, hmove⟩ := Option.isSome_iff_exists.mp
    (by decide : (moveToSlots {} slots (forked (openBelow 7))).isSome = true)
  obtain ⟨after, hrun⟩ := Option.isSome_iff_exists.mp
    (by decide : (childInit {} slots 4 (forked (openBelow 7))).isSome = true)
  exact ⟨moved, after, hmove, hrun, childInit_remapped_iff hprep hmove hrun,
    Or.inl ⟨by decide, by decide⟩⟩

/-- Two extra connections in a parent whose error pipe has number 4: the second one
overwrites the error pipe. -/
theorem childInit_overwrites_error :
    let slots : Slots :=
      { connections := fun i => if i < 3 then .null else .connection
        pipes := fun i => [{}, {}, {}, ⟨none, some 5⟩, ⟨none, some 6⟩].getD i {}
        stdioCount := 5 }
    slots.Prepared 4 (openBelow 7) ∧
      ∃ after, childInit {} slots 4 (forked (openBelow 7)) = some after ∧
        ¬slots.Remapped 4 (openBelow 7) after ∧
        (after.entry 4).map Entry.file = some (.inherited 6) := by
  intro slots
  have hchild : ∀ i < 5, ∀ fd ∈ (slots.pipes i).child, (openBelow 7).entry fd ≠ none := by decide
  have hparent : ∀ i < 5, ∀ fd ∈ (slots.pipes i).parent, (openBelow 7).entry fd ≠ none ∧
      fd ≠ 4 ∧ ∀ j < 5, (slots.pipes j).child ≠ some fd := by decide
  have hfile : (childInit {} slots 4 (forked (openBelow 7))).map
      (fun after => (after.entry 4).map Entry.file) = some (some (.inherited 6)) := by
    decide +kernel
  obtain ⟨after, hrun, hentry⟩ := Option.map_eq_some_iff.mp hfile
  refine ⟨⟨by decide, hchild, by decide, fun i hi fd hfd => (hparent i hi fd hfd).1,
    fun i hi fd hfd => (hparent i hi fd hfd).2⟩, after, hrun, fun hremapped => ?_, hentry⟩
  obtain ⟨e, e', he, he', hsame⟩ := hremapped.error
  have hfour : e = ⟨4, true⟩ := (Option.some.inj he).symm
  rw [he', Option.map_some, hsame, hfour] at hentry
  cases hentry

end Processx
