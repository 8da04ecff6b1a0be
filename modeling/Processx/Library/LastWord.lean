import Mathlib.Data.List.Basic
import Mathlib.Tactic.Common

/-!
# The last word

A list of words about elements, each of which says that an element is in or out. The last word
about an element decides. A set that follows such words holds the elements whose last word is in,
and words about other elements do not matter.
-/

namespace LastWord

variable {α : Type} [DecidableEq α]

/-- Words, oldest first: an element, and whether it is in. -/
abbrev Words (α : Type) := List (α × Bool)

/-- Is the last word about an element that it is in? -/
def holds (words : Words α) (x : α) : Bool :=
  words.foldl (fun inside word => if word.1 = x then word.2 else inside) false

/-- At the start nothing holds. -/
@[simp] theorem holds_nil (x : α) : holds [] x = false := rfl

/-- One more word. -/
@[simp] theorem holds_snoc (words : Words α) (word : α × Bool) (x : α) :
    holds (words ++ [word]) x = if word.1 = x then word.2 else holds words x := by
  simp [holds]

/-- Words that put some elements out. -/
theorem holds_append_out (words : Words α) (out : List α) (x : α) :
    holds (words ++ out.map fun y => (y, false)) x = (holds words x && !decide (x ∈ out)) := by
  induction out generalizing words with
  | nil => simp
  | cons y out ih =>
    have hsplit : words ++ (y :: out).map (fun z => (z, false)) =
        (words ++ [(y, false)]) ++ out.map fun z => (z, false) := by simp
    rw [hsplit, ih, holds_snoc]
    by_cases hy : y = x
    · simp [hy]
    · simp [hy, Ne.symm hy]

/-- The same words behind others. -/
theorem holds_append_mono {words words' : Words α} {x : α}
    (h : holds words x = true → holds words' x = true) (more : Words α)
    (hmore : holds (words ++ more) x = true) : holds (words' ++ more) x = true := by
  induction more generalizing words words' with
  | nil =>
    rw [List.append_nil] at hmore ⊢
    exact h hmore
  | cons word more ih =>
    rw [← List.singleton_append, ← List.append_assoc] at hmore ⊢
    refine ih (fun hlast => ?_) hmore
    rw [holds_snoc] at hlast ⊢
    split_ifs at hlast ⊢
    · exact hlast
    · exact h hlast

/-- What a set of elements is to be after some words. -/
def Follows (words : Words α) (elements : List α) : Prop :=
  ∀ x, x ∈ elements ↔ holds words x = true

namespace Follows

variable {words : Words α} {elements more : List α}

/-- Nothing was said. -/
theorem nil : Follows ([] : Words α) [] := fun x => by simp

/-- An element is put in. -/
theorem put (h : Follows words elements) {x : α}
    (hmore : ∀ y, y ∈ more ↔ y = x ∨ y ∈ elements) : Follows (words ++ [(x, true)]) more := by
  intro y
  rw [hmore, holds_snoc]
  by_cases hy : x = y
  · simp [hy]
  · rw [if_neg hy, h y, or_iff_right fun heq => hy heq.symm]

/-- Elements are taken out. -/
theorem takeOut (h : Follows words elements) {out : List α}
    (hmore : ∀ y, y ∈ more ↔ y ∈ elements ∧ y ∉ out) :
    Follows (words ++ out.map fun y => (y, false)) more := by
  intro y
  rw [hmore, holds_append_out, h y]
  simp

end Follows

end LastWord
