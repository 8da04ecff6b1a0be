import Mathlib.Data.List.Basic

/-!
# Arrays that remember where their entries come from

The items of several owners are put into one array, each with the number of its owner. To go
over the array and to update each time the owner of the item is to update each owner with its
own items.
-/

namespace Scatter

variable {α : Type}

/-- Several updates, one after another. -/
def applyAll (fs : List (α → α)) (x : α) : α := fs.foldl (fun x f => f x) x

/-- Go over the array: each item updates its owner. -/
def scatter (items : List (ℕ × (α → α))) (owners : List α) : List α :=
  items.foldl (fun owners item => owners.modify item.1 item.2) owners

/-- Put the items of the owners from number `i` on into one array. -/
def gather : ℕ → List (List (α → α)) → List (ℕ × (α → α))
  | _, [] => []
  | i, block :: blocks => block.map (fun f => (i, f)) ++ gather (i + 1) blocks

/-- To replace an entry is an update. -/
theorem set_eq_modify (xs : List α) (i : ℕ) (x : α) : xs.set i x = xs.modify i fun _ => x := by
  induction xs generalizing i with
  | nil => rw [List.modify_nil, List.set_nil]
  | cons y xs ih =>
    cases i with
    | zero => rfl
    | succ i => rw [List.set_cons_succ, List.modify_succ_cons, ih]

/-- To replace an entry by itself changes nothing. -/
theorem set_self {xs : List α} {i : ℕ} {x : α} (h : xs[i]? = some x) : xs.set i x = xs := by
  obtain ⟨hi, rfl⟩ := List.getElem?_eq_some_iff.mp h
  exact List.set_getElem_self hi

/-- Items in two groups are scattered one group after the other. -/
theorem scatter_append (items more : List (ℕ × (α → α))) (owners : List α) :
    scatter (items ++ more) owners = scatter more (scatter items owners) := List.foldl_append

/-- One update in the middle of a list. -/
theorem modify_middle (f : α → α) (before after : List α) (x : α) :
    (before ++ x :: after).modify before.length f = before ++ f x :: after := by
  induction before with
  | nil => rfl
  | cons y before ih =>
    rw [List.cons_append, List.length_cons, List.modify_succ_cons, ih, List.cons_append]

/-- The items of one owner update this owner. -/
theorem scatter_block (fs : List (α → α)) (before after : List α) (x : α) :
    scatter (fs.map fun f => (before.length, f)) (before ++ x :: after) =
      before ++ applyAll fs x :: after := by
  induction fs generalizing x with
  | nil => rfl
  | cons f fs ih =>
    have hone := modify_middle f before after x
    exact (congrArg (scatter (fs.map fun f => (before.length, f))) hone).trans (ih (f x))

/-- **Each owner gets its own items.** -/
theorem scatter_gather (blocks : List (List (α → α))) (before owners : List α)
    (hlength : owners.length = blocks.length) :
    scatter (gather before.length blocks) (before ++ owners) =
      before ++ List.zipWith (fun x fs => applyAll fs x) owners blocks := by
  induction blocks generalizing before owners with
  | nil =>
    obtain rfl := List.length_eq_zero_iff.mp hlength
    rfl
  | cons block blocks ih =>
    cases owners with
    | nil => cases hlength
    | cons x owners =>
      have hrest := ih (before ++ [applyAll block x]) owners (Nat.succ.inj hlength)
      rw [List.length_append, List.length_singleton, List.append_assoc, List.append_assoc] at hrest
      rw [gather, scatter_append, scatter_block]
      exact hrest

end Scatter
