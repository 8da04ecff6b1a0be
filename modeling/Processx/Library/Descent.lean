import Mathlib.Data.List.Nodup
import Mathlib.Data.Finset.Card
import Mathlib.Data.Finset.Basic

/-!
# Searching for descendants

A table has a row for each node, with its parent. The descendants of a root are found in passes
over the table. A pass collects the nodes whose parent is in the frontier or was collected earlier
in the same pass, and what it collects is the next frontier.

Each descendant is found once if and only if the root is not a descendant of itself, and no
descendant stands in front of one of its children: what is found together with its parent is found
again in the next pass.
-/

namespace Descent

variable {α : Type}

/-- A node that is reached from the root by one or more steps to a child. -/
inductive Below (rows : List (α × α)) (root : α) : α → Prop
  | child {node : α} (h : (node, root) ∈ rows) : Below rows root node
  | step {node parent : α} (h : (node, parent) ∈ rows) (hparent : Below rows root parent) :
    Below rows root node

/-- A list of the root and of its descendants, without repetitions and with the root in front. -/
structure IsTree (rows : List (α × α)) (root : α) (tree : List α) : Prop where
  head : tree.head? = some root
  nodup : tree.Nodup
  mem_iff : ∀ x, x ∈ tree ↔ x = root ∨ Below rows root x

/-- The root is not a descendant of itself, and a descendant does not stand in front of a child. -/
structure ChildrenFirst (rows : List (α × α)) (root : α) : Prop where
  acyclic : ¬Below rows root root
  order : rows.Pairwise fun row later => Below rows root row.1 → later.2 ≠ row.1

variable {rows : List (α × α)} {root : α}

/-- A child of the root or of a descendant is a descendant. -/
theorem Below.of_parent {node parent : α} (hrow : (node, parent) ∈ rows)
    (hparent : parent = root ∨ Below rows root parent) : Below rows root node := by
  rcases hparent with rfl | hparent
  · exact .child hrow
  · exact .step hrow hparent

/-- A descendant has a row, and its parent is the root or a descendant. -/
theorem Below.exists_row {node : α} (h : Below rows root node) :
    ∃ parent, (node, parent) ∈ rows ∧ (parent = root ∨ Below rows root parent) := by
  cases h with
  | child h => exact ⟨root, h, .inl rfl⟩
  | step h hparent => exact ⟨_, h, .inr hparent⟩

/-- The row of a node is the only one. -/
theorem parent_unique (hnodes : (rows.map Prod.fst).Nodup) {node p q : α} (hp : (node, p) ∈ rows)
    (hq : (node, q) ∈ rows) : p = q :=
  congrArg Prod.snd (List.inj_on_of_nodup_map hnodes hp hq rfl)

variable {frontier old : List α}

/-- The state between the passes, if descendants do not stand in front of their children: no node is
found twice, the children of what is in front of the frontier are found, and what is found was found
for its parent. -/
structure Searching (rows : List (α × α)) (root : α) (old frontier : List α) : Prop where
  head : (old ++ frontier).head? = some root
  nodup : (old ++ frontier).Nodup
  sound : ∀ x ∈ old ++ frontier, x = root ∨ Below rows root x
  children : ∀ node parent, (node, parent) ∈ rows → parent ∈ old → node ∈ old ++ frontier
  parents : ∀ node parent, (node, parent) ∈ rows → node ∈ old ++ frontier →
    node = root ∨ parent ∈ old

/-- Before the first pass only the root is found. -/
theorem Searching.start (rows : List (α × α)) (root : α) : Searching rows root [] [root] where
  head := rfl
  nodup := List.nodup_singleton root
  sound := fun _ hx => .inl (List.mem_singleton.mp hx)
  children := fun _ _ _ hparent => absurd hparent List.not_mem_nil
  parents := fun _ _ _ hnode => .inl (List.mem_singleton.mp hnode)

/-- There is no more to find than the root and the nodes of the rows. -/
theorem Searching.length_le (h : Searching rows root old frontier) :
    (old ++ frontier).length ≤ rows.length + 1 := by
  have hsubset : old ++ frontier ⊆ root :: rows.map Prod.fst := by
    intro x hx
    rcases h.sound x hx with rfl | hbelow
    · exact List.mem_cons_self
    · obtain ⟨parent, hrow, _⟩ := hbelow.exists_row
      exact List.mem_cons_of_mem _ (List.mem_map_of_mem hrow)
  simpa using (List.subperm_of_subset h.nodup hsubset).length_le

/-- When the frontier is empty, all descendants are found. -/
theorem Searching.isTree (h : Searching rows root old []) : IsTree rows root old := by
  have hhead := h.head
  have hnodup := h.nodup
  rw [List.append_nil] at hhead hnodup
  have hroot : root ∈ old := List.mem_of_head? hhead
  refine ⟨hhead, hnodup, fun x => ⟨fun hx => h.sound x (List.mem_append_left _ hx), ?_⟩⟩
  rintro (rfl | hbelow)
  · exact hroot
  · induction hbelow with
    | child hrow => simpa using h.children _ _ hrow hroot
    | step hrow _ ih => simpa using h.children _ _ hrow ih

variable [DecidableEq α] {found : List α}

/-- The rest of a pass, which has collected some nodes already. -/
def collect (frontier : List α) : List (α × α) → List α → List α
  | [], found => found
  | (node, parent) :: rows, found =>
    collect frontier rows (if parent ∈ frontier ++ found then found ++ [node] else found)

/-- The passes, as long as the frontier is not empty. -/
def search (rows : List (α × α)) : ℕ → List α → List α → Option (List α)
  | 0, _, _ => none
  | passes + 1, old, frontier =>
    if frontier = [] then some old
    else search rows passes (old ++ frontier) (collect frontier rows [])

/-- What is collected is kept. -/
theorem subset_collect (frontier : List α) (rows : List (α × α)) (found : List α) :
    found ⊆ collect frontier rows found := by
  induction rows generalizing found with
  | nil => exact fun _ h => h
  | cons row rows ih =>
    intro x hx
    rw [collect]
    refine ih _ ?_
    split
    · exact List.mem_append_left _ hx
    · exact hx

/-- Only nodes of rows are collected. -/
theorem mem_collect {x : α} (h : x ∈ collect frontier rows found) :
    x ∈ found ∨ x ∈ rows.map Prod.fst := by
  induction rows generalizing found with
  | nil => exact .inl h
  | cons row rows ih =>
    rw [collect] at h
    rw [List.map_cons, List.mem_cons]
    rcases ih h with hx | hx
    · split at hx
      · rcases List.mem_append.mp hx with hx | hx
        · exact .inl hx
        · exact .inr (.inl (List.mem_singleton.mp hx))
      · exact .inl hx
    · exact .inr (.inr hx)

/-- The child of a node that is in the frontier, or collected already, is collected. -/
theorem mem_collect_of_parent {node parent : α} (hrow : (node, parent) ∈ rows)
    (hparent : parent ∈ frontier ++ found) : node ∈ collect frontier rows found := by
  induction rows generalizing found with
  | nil => cases hrow
  | cons row rows ih =>
    rw [collect]
    rcases List.mem_cons.mp hrow with rfl | hrow
    · rw [if_pos hparent]
      exact subset_collect frontier rows _ (List.mem_append_right _ List.mem_cons_self)
    · refine ih hrow ?_
      split
      · rw [← List.append_assoc]
        exact List.mem_append_left _ hparent
      · exact hparent

/-- A pass over rows in two groups is a pass over each. -/
theorem collect_append (frontier : List α) (before behind : List (α × α)) (found : List α) :
    collect frontier (before ++ behind) found =
      collect frontier behind (collect frontier before found) := by
  induction before generalizing found with
  | nil => rfl
  | cons row before ih => exact ih _

/-- If no parent in the rest of the table is collected in this pass, then a pass collects the
children of the frontier. -/
theorem collect_eq (rows : List (α × α)) (found : List α)
    (hfound : ∀ row ∈ rows, row.2 ∉ found)
    (horder : rows.Pairwise fun row later => row.2 ∈ frontier → later.2 ≠ row.1) :
    collect frontier rows found =
      found ++ (rows.filter fun row => row.2 ∈ frontier).map Prod.fst := by
  induction rows generalizing found with
  | nil => rw [collect, List.filter_nil, List.map_nil, List.append_nil]
  | cons row rows ih =>
    obtain ⟨hrow, horder⟩ := List.pairwise_cons.mp horder
    have hnot := hfound row List.mem_cons_self
    have hlater : ∀ later ∈ rows, later.2 ∉ found :=
      fun later h => hfound later (List.mem_cons_of_mem _ h)
    have hiff : row.2 ∈ frontier ++ found ↔ row.2 ∈ frontier := by simp [hnot]
    rw [collect]
    by_cases hmem : row.2 ∈ frontier
    · rw [if_pos (hiff.mpr hmem), ih _ ?_ horder, List.filter_cons_of_pos (by simpa using hmem),
        List.map_cons, List.append_assoc, List.singleton_append]
      intro later h hin
      rcases List.mem_append.mp hin with hin | hin
      · exact hlater later h hin
      · exact hrow later h hmem (List.mem_singleton.mp hin)
    · rw [if_neg (hiff.not.mpr hmem), ih _ hlater horder,
        List.filter_cons_of_neg (by simpa using hmem)]

/-- A pass collects the children of the frontier. -/
theorem Searching.collect_eq (h : Searching rows root old frontier)
    (hfirst : ChildrenFirst rows root) :
    collect frontier rows [] = (rows.filter fun row => row.2 ∈ frontier).map Prod.fst := by
  refine (Descent.collect_eq rows [] (fun _ _ => List.not_mem_nil) ?_).trans (List.nil_append _)
  refine hfirst.order.imp_of_mem fun {row later} hrow _ hlater hfrontier => hlater ?_
  exact .of_parent hrow (h.sound _ (List.mem_append_right _ hfrontier))

/-- A pass finds the children of the frontier, which are the next frontier. -/
theorem Searching.pass (h : Searching rows root old frontier)
    (hnodes : (rows.map Prod.fst).Nodup) (hfirst : ChildrenFirst rows root) :
    Searching rows root (old ++ frontier) (collect frontier rows []) := by
  have hcollect := h.collect_eq hfirst
  have hmem (x : α) : x ∈ collect frontier rows [] ↔
      ∃ parent, (x, parent) ∈ rows ∧ parent ∈ frontier := by
    rw [hcollect]
    simp [List.mem_filter]
  have hbelow {x parent : α} (hrow : (x, parent) ∈ rows) (hparent : parent ∈ frontier) :
      Below rows root x :=
    .of_parent hrow (h.sound parent (List.mem_append_right _ hparent))
  constructor
  · rw [List.head?_append, h.head]
    rfl
  · refine List.Nodup.append h.nodup ?_ ?_
    · rw [hcollect]
      exact hnodes.sublist (List.filter_sublist.map _)
    · intro x hold hnew
      obtain ⟨parent, hrow, hparent⟩ := (hmem x).mp hnew
      rcases h.parents x parent hrow hold with rfl | hin
      · exact hfirst.acyclic (hbelow hrow hparent)
      · exact List.disjoint_of_nodup_append h.nodup hin hparent
  · intro x hx
    rcases List.mem_append.mp hx with hx | hx
    · exact h.sound x hx
    · obtain ⟨parent, hrow, hparent⟩ := (hmem x).mp hx
      exact .inr (hbelow hrow hparent)
  · intro node parent hrow hparent
    rcases List.mem_append.mp hparent with hparent | hparent
    · exact List.mem_append_left _ (h.children node parent hrow hparent)
    · exact List.mem_append_right _ ((hmem node).mpr ⟨parent, hrow, hparent⟩)
  · intro node parent hrow hnode
    rcases List.mem_append.mp hnode with hnode | hnode
    · exact (h.parents node parent hrow hnode).imp_right (List.mem_append_left _)
    · obtain ⟨parent', hrow', hparent'⟩ := (hmem node).mp hnode
      rw [parent_unique hnodes hrow hrow']
      exact .inr (List.mem_append_right _ hparent')

/-- If children stand first then the search ends with the tree. -/
theorem Searching.search (hnodes : (rows.map Prod.fst).Nodup) (hfirst : ChildrenFirst rows root)
    {passes : ℕ} (h : Searching rows root old frontier)
    (hpasses : rows.length + 1 - old.length < passes) :
    ∃ tree, search rows passes old frontier = some tree ∧ IsTree rows root tree := by
  induction passes generalizing old frontier with
  | zero => omega
  | succ passes ih =>
    rw [Descent.search]
    by_cases hend : frontier = []
    · rw [if_pos hend]
      exact ⟨old, rfl, (hend ▸ h).isTree⟩
    · rw [if_neg hend]
      refine ih (h.pass hnodes hfirst) ?_
      have hle := h.length_le
      have hpos := List.length_pos_of_ne_nil hend
      rw [List.length_append] at hle ⊢
      omega

/-- A node that stands in front of a child, and is found by a pass, is found together with it. -/
theorem mem_collect_of_order {before behind : List (α × α)} {x grandparent node : α}
    (hnodes : ((before ++ (x, grandparent) :: behind).map Prod.fst).Nodup)
    (hchild : (node, x) ∈ behind)
    (hx : x ∈ collect frontier (before ++ (x, grandparent) :: behind) []) :
    node ∈ collect frontier (before ++ (x, grandparent) :: behind) [] := by
  rw [List.map_append, List.map_cons, List.nodup_append] at hnodes
  obtain ⟨-, hbehind, hdisjoint⟩ := hnodes
  have hbefore : x ∉ before.map Prod.fst := fun h => hdisjoint x h x List.mem_cons_self rfl
  rw [collect_append, collect] at hx ⊢
  generalize hfound : collect frontier before [] = found at hx ⊢
  have hnot : x ∉ found := fun h =>
    (mem_collect (hfound ▸ h)).elim List.not_mem_nil hbefore
  by_cases hparent : grandparent ∈ frontier ++ found
  · -- its row comes before that of the child
    rw [if_pos hparent]
    exact mem_collect_of_parent hchild
      (List.mem_append_right _ (List.mem_append_right _ List.mem_cons_self))
  · rw [if_neg hparent] at hx
    exact ((mem_collect hx).elim hnot (List.nodup_cons.mp hbehind).1).elim

/-- A search that ends finds the child of each node that it finds, in the pass for this node. -/
theorem search_children {passes : ℕ} {tree : List α}
    (hend : search rows passes old frontier = some tree) :
    ∃ later, tree = old ++ frontier ++ later ∧
      ∀ node parent, (node, parent) ∈ rows → parent ∈ frontier ++ later → node ∈ later := by
  induction passes generalizing old frontier with
  | zero => cases hend
  | succ passes ih =>
    rw [search] at hend
    by_cases hempty : frontier = []
    · rw [if_pos hempty, Option.some.injEq] at hend
      exact ⟨[], by simp [hempty, hend], fun node parent _ hin => by simp [hempty] at hin⟩
    · rw [if_neg hempty] at hend
      obtain ⟨later, rfl, hlater⟩ := ih hend
      refine ⟨collect frontier rows [] ++ later, List.append_assoc _ _ _, ?_⟩
      intro node parent hrow hparent
      rcases List.mem_append.mp hparent with hparent | hparent
      · exact List.mem_append_left _
          (mem_collect_of_parent hrow (List.mem_append_left _ hparent))
      · exact List.mem_append_right _ (hlater node parent hrow hparent)

/-- If a node stands in front of a child then the child is found twice, in the pass that finds the
node, and in the next one. -/
theorem search_twice {before behind : List (α × α)} {x grandparent node : α}
    (hnodes : ((before ++ (x, grandparent) :: behind).map Prod.fst).Nodup)
    (hchild : (node, x) ∈ behind) {passes : ℕ} {tree : List α}
    (hend : search (before ++ (x, grandparent) :: behind) passes old frontier = some tree)
    (hx : x ∉ old ++ frontier) (htree : x ∈ tree) : ¬tree.Nodup := by
  induction passes generalizing old frontier with
  | zero => cases hend
  | succ passes ih =>
    rw [search] at hend
    by_cases hempty : frontier = []
    · rw [if_pos hempty, Option.some.injEq] at hend
      exact absurd (List.mem_append_left _ (hend ▸ htree)) hx
    · rw [if_neg hempty] at hend
      by_cases hfound : x ∈ collect frontier (before ++ (x, grandparent) :: behind) []
      · obtain ⟨later, rfl, hlater⟩ := search_children hend
        have hrow : (node, x) ∈ before ++ (x, grandparent) :: behind := by simp [hchild]
        have hagain := hlater node x hrow (List.mem_append_left _ hfound)
        have honce := mem_collect_of_order hnodes hchild hfound
        exact fun hnodup => List.disjoint_of_nodup_append hnodup
          (List.mem_append_right _ honce) hagain
      · exact ih hend (fun h => (List.mem_append.mp h).elim hx hfound)

/-- A search that ends with the tree has a table in which children stand first. -/
theorem ChildrenFirst.of_isTree (hnodes : (rows.map Prod.fst).Nodup) {passes : ℕ} {tree : List α}
    (hend : search rows passes [] [root] = some tree) (h : IsTree rows root tree) :
    ChildrenFirst rows root := by
  obtain ⟨later, htree, hlater⟩ := search_children hend
  rw [List.nil_append, List.singleton_append] at htree
  have hacyclic : ¬Below rows root root := by
    intro hbelow
    obtain ⟨parent, hrow, hparent⟩ := hbelow.exists_row
    have hin : parent ∈ root :: later := htree ▸ (h.mem_iff parent).mpr hparent
    exact (List.nodup_cons.mp (htree ▸ h.nodup)).1 (hlater root parent hrow hin)
  refine ⟨hacyclic, ?_⟩
  rw [List.pairwise_iff_forall_sublist]
  rintro ⟨x, grandparent⟩ ⟨node, parent⟩ hsublist hbelow rfl
  obtain ⟨first, second, hrows, hrow, hchild⟩ := List.cons_sublist_iff.mp hsublist
  obtain ⟨before, behind, rfl⟩ := List.append_of_mem hrow
  rw [List.append_assoc, List.cons_append] at hrows
  subst hrows
  have hne : parent ∉ [] ++ [root] := by
    intro hin
    obtain rfl := List.mem_singleton.mp hin
    exact hacyclic hbelow
  exact search_twice hnodes (List.mem_append_right _ (List.singleton_sublist.mp hchild)) hend hne
    ((h.mem_iff parent).mpr (.inr hbelow)) h.nodup

/-- The search finds each descendant of the root once, and nothing else, if and only if the root is
not a descendant of itself and children stand first. -/
theorem search_iff (hnodes : (rows.map Prod.fst).Nodup) :
    (∃ passes tree, search rows passes [] [root] = some tree ∧ IsTree rows root tree) ↔
      ChildrenFirst rows root := by
  constructor
  · rintro ⟨passes, tree, hend, htree⟩
    exact .of_isTree hnodes hend htree
  · intro hfirst
    exact ⟨rows.length + 2, (Searching.start rows root).search hnodes hfirst (by simp)⟩

end Descent
