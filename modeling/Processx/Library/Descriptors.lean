import Mathlib.Data.List.Basic
import Mathlib.Order.Nat

/-!
# Descriptor tables

The table that maps the descriptor numbers of a process to open files, with the system
calls that change it. A table carries a bound on the numbers in use. Files are of an
arbitrary type; two entries with the same file share it.
-/

namespace Posix

/-- An entry of a descriptor table. -/
structure Entry (φ : Type) where
  file : φ
  cloexec : Bool := false
  deriving DecidableEq

/-- A descriptor table. Only finitely many numbers are in use. -/
structure Table (φ : Type) where
  entry : ℕ → Option (Entry φ)
  bound : ℕ
  entry_of_bound_le : ∀ n, bound ≤ n → entry n = none

namespace Table

variable {φ ψ : Type}

/-- Let a number refer to an entry. -/
def set (t : Table φ) (n : ℕ) (e : Entry φ) : Table φ where
  entry m := if m = n then some e else t.entry m
  bound := max t.bound (n + 1)
  entry_of_bound_le m hm := by
    rw [if_neg (by omega)]
    exact t.entry_of_bound_le m (by omega)

/-- `close()`, whose result for a number that is not in use is of no interest. -/
def close (t : Table φ) (n : ℕ) : Table φ where
  entry m := if m = n then none else t.entry m
  bound := t.bound
  entry_of_bound_le m hm := by
    rw [t.entry_of_bound_le m hm]
    exact ite_self none

/-- The lowest free number from `min` on. -/
def lowestFree (t : Table φ) (min : ℕ) : ℕ :=
  ((List.range' min (t.bound - min)).find? fun n => (t.entry n).isNone).getD (max min t.bound)

/-- `open()`: a new file at the lowest free number. -/
def openFile (t : Table φ) (file : φ) : ℕ × Table φ :=
  (t.lowestFree 0, t.set (t.lowestFree 0) ⟨file, false⟩)

/-- `fcntl(fd, F_DUPFD, min)`. -/
def dupFrom (t : Table φ) (fd min : ℕ) : Option (ℕ × Table φ) :=
  (t.entry fd).map fun e => (t.lowestFree min, t.set (t.lowestFree min) ⟨e.file, false⟩)

/-- `dup2()` onto another number. -/
def dup2 (t : Table φ) (old new : ℕ) : Option (Table φ) :=
  (t.entry old).map fun e => t.set new ⟨e.file, false⟩

/-- `fcntl(fd, F_SETFD)`. -/
def setCloexec (t : Table φ) (n : ℕ) (flag : Bool) : Table φ :=
  match t.entry n with
  | none => t
  | some e => t.set n ⟨e.file, flag⟩

/-- The same table with the files renamed. -/
def map (f : φ → ψ) (t : Table φ) : Table ψ where
  entry n := (t.entry n).map fun e => ⟨f e.file, e.cloexec⟩
  bound := t.bound
  entry_of_bound_le n hn := by
    rw [t.entry_of_bound_le n hn]
    rfl

/-- A descriptor that was set has its new entry. -/
@[simp] theorem entry_set_self (t : Table φ) (n : ℕ) (e : Entry φ) :
    (t.set n e).entry n = some e := if_pos rfl

/-- Setting a descriptor leaves the others alone. -/
theorem entry_set_of_ne (t : Table φ) {m n : ℕ} (h : m ≠ n) (e : Entry φ) :
    (t.set n e).entry m = t.entry m := if_neg h

/-- A closed descriptor has no entry. -/
@[simp] theorem entry_close_self (t : Table φ) (n : ℕ) : (t.close n).entry n = none := if_pos rfl

/-- Closing a descriptor leaves the others alone. -/
theorem entry_close_of_ne (t : Table φ) {m n : ℕ} (h : m ≠ n) :
    (t.close n).entry m = t.entry m := if_neg h

/-- Renaming the files renames the file of each entry. -/
@[simp] theorem entry_map (f : φ → ψ) (t : Table φ) (n : ℕ) :
    (t.map f).entry n = (t.entry n).map fun e => ⟨f e.file, e.cloexec⟩ := rfl

/-- The number that is found is free. -/
theorem entry_lowestFree (t : Table φ) (min : ℕ) : t.entry (t.lowestFree min) = none := by
  unfold lowestFree
  cases hfind : (List.range' min (t.bound - min)).find? fun n => (t.entry n).isNone with
  | none => exact t.entry_of_bound_le _ (le_max_right _ _)
  | some n =>
    have hfree := List.find?_some hfind
    exact Option.isNone_iff_eq_none.mp hfree

/-- It is not below `min`. -/
theorem le_lowestFree (t : Table φ) (min : ℕ) : min ≤ t.lowestFree min := by
  unfold lowestFree
  cases hfind : (List.range' min (t.bound - min)).find? fun n => (t.entry n).isNone with
  | none => exact le_max_left _ _
  | some n => exact (List.mem_range'_1.mp (List.mem_of_find?_eq_some hfind)).1

/-- Clearing or setting the flag keeps the file, and all other entries. -/
theorem entry_setCloexec (t : Table φ) {n : ℕ} {e : Entry φ} (h : t.entry n = some e)
    (flag : Bool) : t.setCloexec n flag = t.set n ⟨e.file, flag⟩ := by
  rw [setCloexec, h]

/-- A list of the numbers that refer to files of some kind, each of them once. -/
structure Holds (t : Table φ) (p : φ → Prop) (numbers : List ℕ) : Prop where
  nodup : numbers.Nodup
  mem_iff : ∀ n, n ∈ numbers ↔ ∃ e, t.entry n = some e ∧ p e.file

variable {t : Table φ} {p : φ → Prop} {numbers numbers' : List ℕ}

/-- The order of the list does not matter. -/
theorem Holds.perm (h : t.Holds p numbers) (hperm : numbers.Perm numbers') :
    t.Holds p numbers' where
  nodup := hperm.nodup_iff.mp h.nodup
  mem_iff n := hperm.mem_iff.symm.trans (h.mem_iff n)

/-- A new file of the kind is one more. -/
theorem Holds.openFile (h : t.Holds p numbers) {file : φ} (hfile : p file) :
    (t.openFile file).2.Holds p ((t.openFile file).1 :: numbers) := by
  have hfree := t.entry_lowestFree 0
  constructor
  · apply List.nodup_cons.mpr
    constructor
    · intro hmem
      obtain ⟨e, hentry, _⟩ := (h.mem_iff _).mp hmem
      rw [Table.openFile, hfree] at hentry
      cases hentry
    · exact h.nodup
  · intro n
    by_cases heq : n = t.lowestFree 0
    · rw [heq, Table.openFile, entry_set_self]
      exact iff_of_true (List.mem_cons_self ..) ⟨_, rfl, hfile⟩
    · rw [Table.openFile, entry_set_of_ne t heq, List.mem_cons, h.mem_iff]
      exact or_iff_right heq

/-- A new file of another kind makes no difference. -/
theorem Holds.openFile_other (h : t.Holds p numbers) {file : φ} (hfile : ¬p file) :
    (t.openFile file).2.Holds p numbers where
  nodup := h.nodup
  mem_iff n := by
    rw [h.mem_iff]
    by_cases heq : n = t.lowestFree 0
    · rw [heq, Table.openFile, entry_set_self, t.entry_lowestFree]
      apply iff_of_false
      · rintro ⟨e, hentry, _⟩
        cases hentry
      · rintro ⟨e, hentry, hp⟩
        obtain rfl := Option.some.inj hentry
        exact hfile hp
    · rw [Table.openFile, entry_set_of_ne t heq]

/-- Closing a number of the list takes it out. -/
theorem Holds.close {n : ℕ} (h : t.Holds p (n :: numbers)) : (t.close n).Holds p numbers where
  nodup := (List.nodup_cons.mp h.nodup).2
  mem_iff m := by
    have hnot := (List.nodup_cons.mp h.nodup).1
    by_cases heq : m = n
    · rw [heq, entry_close_self]
      apply iff_of_false hnot
      rintro ⟨e, hentry, _⟩
      cases hentry
    · rw [entry_close_of_ne t heq, ← h.mem_iff, List.mem_cons]
      exact (or_iff_right heq).symm

/-- Closing a file of another kind makes no difference. -/
theorem Holds.close_other {n : ℕ} {e : Entry φ} (h : t.Holds p numbers)
    (hentry : t.entry n = some e) (hfile : ¬p e.file) : (t.close n).Holds p numbers where
  nodup := h.nodup
  mem_iff m := by
    rw [h.mem_iff]
    by_cases heq : m = n
    · rw [heq, entry_close_self, hentry]
      apply iff_of_false
      · rintro ⟨e', hsome, hp⟩
        obtain rfl := Option.some.inj hsome
        exact hfile hp
      · rintro ⟨e', hnone, _⟩
        cases hnone
    · rw [entry_close_of_ne t heq]

end Table

/-- **Loops over slots.** An invariant that every round of a loop keeps, if it succeeds,
holds at the end of the loop. -/
theorem foldlM_range_invariant {σ : Type} {f : σ → ℕ → Option σ} (inv : ℕ → σ → Prop) {count : ℕ}
    (hstep : ∀ i s s', i < count → inv i s → f s i = some s' → inv (i + 1) s') {s s' : σ}
    (h : inv 0 s) (hrun : (List.range count).foldlM f s = some s') : inv count s' := by
  induction count generalizing s' with
  | zero =>
    have heq : s = s' := by simpa using hrun
    rwa [← heq]
  | succ count ih =>
    rw [List.range_succ, List.foldlM_append] at hrun
    obtain ⟨middle, hmiddle, hlast⟩ := Option.bind_eq_some_iff.mp hrun
    have hbefore := ih (fun i s s' hi => hstep i s s' (Nat.lt_succ_of_lt hi)) hmiddle
    exact hstep count middle s' (Nat.lt_succ_self _) hbefore (by simpa using hlast)

end Posix
