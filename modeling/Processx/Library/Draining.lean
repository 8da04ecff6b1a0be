import Mathlib.Logic.Function.Iterate
import Mathlib.Data.Nat.Init

/-!
# Draining two sources in lockstep

A loop pulls from two sources in each round, as long as there is more to come from one of them,
and gives up if both pulls fail in one round. When does it end? If ends and failures are final
then it ends unless one of the sources never ends and one of them, the same or the other one, never
fails. A source that makes progress with every pull that succeeds comes to its end or to a pull
that fails.
-/

namespace Draining

variable {S : Type*}

/-- A source: is there more to come, and what does one pull do? It may succeed or fail. -/
structure Source (S : Type*) where
  more : S → Bool
  pull : S → Bool × S

namespace Source

variable (a : Source S)

/-- A source after some pulls. -/
def after (s : S) (n : ℕ) : S := (fun s => (a.pull s).2)^[n] s

/-- There is always more to come. -/
def NeverEnds (s : S) : Prop := ∀ n, a.more (a.after s n) = true

/-- Every pull succeeds. -/
def NeverFails (s : S) : Prop := ∀ n, (a.pull (a.after s n)).1 = true

/-- One round of the loop over two sources, `none` if it has ended. -/
def round (p : S × S) : Option (S × S) :=
  if a.more p.1 || a.more p.2 then
    if (a.pull p.1).1 || (a.pull p.2).1 then some ((a.pull p.1).2, (a.pull p.2).2) else none
  else none

/-- Some rounds, `none` if the loop has ended. -/
def rounds : ℕ → S × S → Option (S × S)
  | 0, p => some p
  | n + 1, p => (a.round p).bind (rounds n)

/-- The loop ends after finitely many rounds. -/
def Ends (p : S × S) : Prop := ∃ n, a.rounds n p = none

/-- An invariant in which an end and a failure are final. -/
structure Settles (Inv : S → Prop) : Prop where
  keeps : ∀ s, Inv s → Inv (a.pull s).2
  ended : ∀ s, Inv s → a.more s = false → a.more (a.pull s).2 = false
  failed : ∀ s, Inv s → (a.pull s).1 = false → (a.pull (a.pull s).2).1 = false

/-- What keeps a source from going on for ever without bringing anything: a pull that succeeds
before the end makes the rest smaller. -/
structure Drains (Inv : S → Prop) (size : S → ℕ) : Prop extends a.Settles Inv where
  progress : ∀ s, Inv s → a.more s = true → (a.pull s).1 = true → size (a.pull s).2 < size s

variable {a}

/-- Without a turn nothing changes. -/
@[simp] theorem after_zero (s : S) : a.after s 0 = s := rfl

/-- The last pull. -/
theorem after_succ (s : S) (n : ℕ) : a.after s (n + 1) = (a.pull (a.after s n)).2 :=
  Function.iterate_succ_apply' _ _ _

/-- The first pull. -/
theorem after_succ_first (s : S) (n : ℕ) : a.after s (n + 1) = a.after (a.pull s).2 n :=
  Function.iterate_succ_apply _ _ _

/-- The loop has ended in one of its first rounds exactly if there was nothing more to come, or if
both pulls failed. -/
theorem rounds_eq_none_iff (n : ℕ) (s t : S) :
    a.rounds n (s, t) = none ↔ ∃ k < n,
      (a.more (a.after s k) = false ∧ a.more (a.after t k) = false) ∨
        ((a.pull (a.after s k)).1 = false ∧ (a.pull (a.after t k)).1 = false) := by
  induction n generalizing s t with
  | zero => simp [rounds]
  | succ n ih =>
    rw [rounds]
    by_cases hnow : (a.more s = false ∧ a.more t = false) ∨
        ((a.pull s).1 = false ∧ (a.pull t).1 = false)
    · refine iff_of_true ?_ ⟨0, Nat.succ_pos n, hnow⟩
      have hround : a.round (s, t) = none := by
        unfold round
        rcases hnow with ⟨hs, ht⟩ | ⟨hs, ht⟩
        · simp [hs, ht]
        · simp [hs, ht]
      rw [hround]
      rfl
    · have hround : a.round (s, t) = some ((a.pull s).2, (a.pull t).2) := by
        unfold round
        rw [not_or, not_and_or, not_and_or, Bool.not_eq_false, Bool.not_eq_false, Bool.not_eq_false,
          Bool.not_eq_false] at hnow
        rw [if_pos (Bool.or_eq_true_iff.mpr hnow.1), if_pos (Bool.or_eq_true_iff.mpr hnow.2)]
      rw [hround, Option.bind_some, ih]
      constructor
      · rintro ⟨k, hk, hend⟩
        refine ⟨k + 1, Nat.succ_lt_succ hk, ?_⟩
        rw [after_succ_first, after_succ_first]
        exact hend
      · rintro ⟨k, hk, hend⟩
        cases k with
        | zero => exact absurd hend hnow
        | succ k =>
          rw [after_succ_first, after_succ_first] at hend
          exact ⟨k, Nat.lt_of_succ_lt_succ hk, hend⟩

namespace Settles

variable {Inv : S → Prop} {s t : S}

/-- The invariant holds behind any number of pulls. -/
theorem keeps_after (h : a.Settles Inv) (hs : Inv s) (n : ℕ) : Inv (a.after s n) := by
  induction n with
  | zero => exact hs
  | succ n ih =>
    rw [after_succ]
    exact h.keeps _ ih

/-- An end is final. -/
theorem ended_after (h : a.Settles Inv) (hs : Inv s) {m n : ℕ} (hmn : m ≤ n)
    (hm : a.more (a.after s m) = false) : a.more (a.after s n) = false := by
  induction n, hmn using Nat.le_induction with
  | base => exact hm
  | succ n hmn ih =>
    rw [after_succ]
    exact h.ended _ (h.keeps_after hs n) ih

/-- A failure is final. -/
theorem failed_after (h : a.Settles Inv) (hs : Inv s) {m n : ℕ} (hmn : m ≤ n)
    (hm : (a.pull (a.after s m)).1 = false) : (a.pull (a.after s n)).1 = false := by
  induction n, hmn using Nat.le_induction with
  | base => exact hm
  | succ n hmn ih =>
    rw [after_succ]
    exact h.failed _ (h.keeps_after hs n) ih

/-- **Draining in lockstep.** The loop over two sources ends, unless one of them never ends and one
never fails. -/
theorem ends_iff (h : a.Settles Inv) (hs : Inv s) (ht : Inv t) :
    a.Ends (s, t) ↔
      ¬((a.NeverEnds s ∨ a.NeverEnds t) ∧ (a.NeverFails s ∨ a.NeverFails t)) := by
  constructor
  · rintro ⟨n, hn⟩ ⟨hends, hfails⟩
    obtain ⟨k, -, ⟨hs', ht'⟩ | ⟨hs', ht'⟩⟩ := (rounds_eq_none_iff n s t).mp hn
    · rcases hends with hends | hends
      · exact absurd (hends k) (by simp [hs'])
      · exact absurd (hends k) (by simp [ht'])
    · rcases hfails with hfails | hfails
      · exact absurd (hfails k) (by simp [hs'])
      · exact absurd (hfails k) (by simp [ht'])
  · intro hnot
    by_contra hloop
    have hrounds : ∀ k, ¬((a.more (a.after s k) = false ∧ a.more (a.after t k) = false) ∨
        ((a.pull (a.after s k)).1 = false ∧ (a.pull (a.after t k)).1 = false)) := fun k hend =>
      hloop ⟨k + 1, (rounds_eq_none_iff (k + 1) s t).mpr ⟨k, Nat.lt_succ_self k, hend⟩⟩
    -- ends and failures are final, so one source never ends, and one never fails
    refine hnot ⟨?_, ?_⟩
    · by_contra hboth
      simp only [not_or, NeverEnds, not_forall, Bool.not_eq_true] at hboth
      obtain ⟨⟨m, hm⟩, n, hn⟩ := hboth
      exact hrounds (max m n) (Or.inl ⟨h.ended_after hs (Nat.le_max_left m n) hm,
        h.ended_after ht (Nat.le_max_right m n) hn⟩)
    · by_contra hboth
      simp only [not_or, NeverFails, not_forall, Bool.not_eq_true] at hboth
      obtain ⟨⟨m, hm⟩, n, hn⟩ := hboth
      exact hrounds (max m n) (Or.inr ⟨h.failed_after hs (Nat.le_max_left m n) hm,
        h.failed_after ht (Nat.le_max_right m n) hn⟩)

end Settles

/-- A source that drains comes to its end or to a failure. -/
theorem Drains.ends_or_fails {Inv : S → Prop} {size : S → ℕ} {s : S} (h : a.Drains Inv size)
    (hs : Inv s) : ¬(a.NeverEnds s ∧ a.NeverFails s) := by
  rintro ⟨hends, hfails⟩
  -- the rest gets smaller with each pull
  have hsize : ∀ n, size (a.after s n) + n ≤ size s := by
    intro n
    induction n with
    | zero => exact Nat.le_refl _
    | succ n ih =>
      have hless := h.progress _ (h.keeps_after hs n) (hends n) (hfails n)
      rw [← after_succ] at hless
      omega
  have := hsize (size s + 1)
  omega

end Source

end Draining
