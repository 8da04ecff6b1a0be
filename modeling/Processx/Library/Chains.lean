import Mathlib.Data.List.Nodup
import Mathlib.Logic.Function.Basic

/-!
# Chains of cells

Lists in a memory whose cells refer to the next one. What such a list visits is determined by the
references of its cells, so writing to another cell leaves it alone, and a list that comes to an
end never visits a cell twice.
-/

namespace Chains

variable {A : Type*} {next next' : A → Option A}

/-- Following `next` from a reference visits these cells, and comes to the end then. -/
def Linked (next : A → Option A) : Option A → List A → Prop
  | p, [] => p = none
  | p, x :: xs => p = some x ∧ Linked next (next x) xs

/-- The empty chain starts at the null pointer. -/
@[simp] theorem linked_nil {p : Option A} : Linked next p [] ↔ p = none := Iff.rfl

/-- A chain starts at its first node, and goes on behind it. -/
@[simp] theorem linked_cons {p : Option A} {x : A} {xs : List A} :
    Linked next p (x :: xs) ↔ p = some x ∧ Linked next (next x) xs := Iff.rfl

/-- A reference determines the cells that are visited. -/
theorem Linked.unique {p : Option A} {xs ys : List A} (hxs : Linked next p xs)
    (hys : Linked next p ys) : xs = ys := by
  induction xs generalizing p ys with
  | nil =>
    cases ys with
    | nil => rfl
    | cons y ys => exact absurd (hxs.symm.trans hys.1) (by simp)
  | cons x xs ih =>
    obtain ⟨rfl, hrest⟩ := hxs
    cases ys with
    | nil => cases hys
    | cons y ys =>
      obtain ⟨heq, hrest'⟩ := hys
      obtain rfl := Option.some.inj heq
      rw [ih hrest hrest']

/-- The cells behind one that is visited. -/
theorem Linked.suffix {p : Option A} {xs ys : List A} {x : A}
    (h : Linked next p (xs ++ x :: ys)) : Linked next (some x) (x :: ys) := by
  induction xs generalizing p with
  | nil => exact ⟨rfl, h.2⟩
  | cons z xs ih => exact ih h.2

/-- No cell is visited twice: the same cells would be behind it both times. -/
theorem Linked.nodup {p : Option A} {xs : List A} (h : Linked next p xs) : xs.Nodup := by
  induction xs generalizing p with
  | nil => exact List.nodup_nil
  | cons x xs ih =>
    refine List.nodup_cons.mpr ⟨fun hmem => ?_, ih h.2⟩
    obtain ⟨before, behind, rfl⟩ := List.append_of_mem hmem
    have hfirst : Linked next (some x) (x :: (before ++ x :: behind)) := ⟨rfl, h.2⟩
    have hsame := hfirst.unique h.2.suffix
    have hlength := congrArg List.length hsame
    simp only [List.length_cons, List.length_append] at hlength
    omega

/-- Only the references of the visited cells matter. -/
theorem Linked.congr {p : Option A} {xs : List A} (h : Linked next p xs)
    (hsame : ∀ x ∈ xs, next' x = next x) : Linked next' p xs := by
  induction xs generalizing p with
  | nil => exact h
  | cons x xs ih =>
    refine ⟨h.1, ?_⟩
    rw [hsame x List.mem_cons_self]
    exact ih h.2 fun y hy => hsame y (List.mem_cons_of_mem x hy)

variable [DecidableEq A]

/-- Writing to a cell that is not visited. -/
theorem Linked.update {p : Option A} {xs : List A} (h : Linked next p xs) {a : A} (ha : a ∉ xs)
    (q : Option A) : Linked (Function.update next a q) p xs :=
  h.congr fun x hx => Function.update_of_ne (fun heq : x = a => ha (heq ▸ hx)) q next

end Chains
