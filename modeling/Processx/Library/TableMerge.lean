import Mathlib.Data.List.Perm.Basic
import Mathlib.Data.List.Pairwise
import Mathlib.Order.Lattice

/-!
# Merging a table into a list

The rows of a sorted table are merged into a sorted list, apart from those whose key is in the list
already. A loop that does this goes over both at the same time. Its steps are the merged list: one
for each element, and one for each row that is missing.
-/

namespace TableMerge

variable {ρ α κ : Type} [LinearOrder κ]

/-- The steps of the loop: rows that are missing, and elements. -/
def walk (rowKey : ρ → κ) (key : α → κ) : List ρ → List α → List (ρ ⊕ α)
  | [], es => es.map .inr
  | r :: rs, [] => .inl r :: walk rowKey key rs []
  | r :: rs, e :: es =>
    if rowKey r < key e then .inl r :: walk rowKey key rs (e :: es)
    else if rowKey r = key e then .inr e :: walk rowKey key rs es
    else .inr e :: walk rowKey key (r :: rs) es
  termination_by rs es => rs.length + es.length

/-- The key of a step. -/
abbrev stepKey (rowKey : ρ → κ) (key : α → κ) : ρ ⊕ α → κ := Sum.elim rowKey key

variable {rowKey : ρ → κ} {key : α → κ}

/-- Behind the last row only elements are left. -/
theorem walk_nil_left (es : List α) : walk rowKey key [] es = es.map .inr := by
  rw [walk]

/-- A row is missing if it is before the next element, or there is none. -/
theorem walk_missing {r : ρ} {rs : List ρ} {es : List α} (h : ∀ e ∈ es.head?, rowKey r < key e) :
    walk rowKey key (r :: rs) es = .inl r :: walk rowKey key rs es := by
  cases es with
  | nil => rw [walk]
  | cons e es => rw [walk, if_pos (h e rfl)]

/-- An element with the key of a row takes the place of the row. -/
theorem walk_eq {r : ρ} {rs : List ρ} {e : α} {es : List α} (h : rowKey r = key e) :
    walk rowKey key (r :: rs) (e :: es) = .inr e :: walk rowKey key rs es := by
  rw [walk, if_neg (h ▸ lt_irrefl _), if_pos h]

/-- An element in front of a row is added. -/
theorem walk_gt {r : ρ} {rs : List ρ} {e : α} {es : List α} (h : key e < rowKey r) :
    walk rowKey key (r :: rs) (e :: es) = .inr e :: walk rowKey key (r :: rs) es := by
  rw [walk, if_neg (not_lt_of_gt h), if_neg (ne_of_gt h)]

/-- Induction over the steps of the loop. -/
theorem walk_induction {motive : List ρ → List α → Prop} (rowKey : ρ → κ) (key : α → κ)
    (rest : ∀ es, motive [] es)
    (missing : ∀ r rs es, (∀ e ∈ es.head?, rowKey r < key e) → motive rs es → motive (r :: rs) es)
    (eq : ∀ r rs e es, rowKey r = key e → motive rs es → motive (r :: rs) (e :: es))
    (gt : ∀ r rs e es, key e < rowKey r → motive (r :: rs) es → motive (r :: rs) (e :: es))
    (rs : List ρ) (es : List α) : motive rs es := by
  induction rs, es using walk.induct rowKey key with
  | case1 es => exact rest es
  | case2 r rs ih => exact missing r rs [] (by simp) ih
  | case3 r rs e es hlt ih => exact missing r rs (e :: es) (by simpa using hlt) ih
  | case4 r rs e es _ heq ih => exact eq r rs e es heq ih
  | case5 r rs e es hlt hne ih =>
    exact gt r rs e es (lt_of_le_of_ne (not_lt.mp hlt) (Ne.symm hne)) ih

/-- Every element has a step, in the same order. -/
theorem filterMap_getRight_walk (rs : List ρ) (es : List α) :
    (walk rowKey key rs es).filterMap Sum.getRight? = es := by
  induction rs, es using walk_induction rowKey key with
  | rest es => simp [walk_nil_left, List.filterMap_map, Function.comp_def]
  | missing r rs es h ih =>
    rw [walk_missing h]
    exact ih
  | eq r rs e es h ih =>
    rw [walk_eq h]
    exact congrArg _ ih
  | gt r rs e es h ih =>
    rw [walk_gt h]
    exact congrArg _ ih

/-- The rows that are missing. -/
def missing (rowKey : ρ → κ) (key : α → κ) (rs : List ρ) (es : List α) : List ρ :=
  rs.filter fun r => decide (rowKey r ∉ es.map key)

/-- An element before all rows makes no difference. -/
theorem missing_cons_of_lt {rs : List ρ} {e : α} (es : List α) (h : ∀ r ∈ rs, key e < rowKey r) :
    missing rowKey key rs (e :: es) = missing rowKey key rs es := by
  refine List.filter_congr fun r hr => decide_eq_decide.mpr ?_
  have hne : rowKey r ≠ key e := ne_of_gt (h r hr)
  rw [List.map_cons, List.mem_cons, or_iff_right hne]

/-- Something before the first element is before all of them. -/
theorem forall_lt_of_head {k : κ} {es : List α} (hes : es.Pairwise (key · ≤ key ·))
    (h : ∀ e ∈ es.head?, k < key e) : ∀ e ∈ es, k < key e := by
  cases es with
  | nil => exact List.forall_mem_nil _
  | cons e es =>
    have he : k < key e := h e rfl
    exact List.forall_mem_cons.mpr ⟨he, fun e' he' =>
      lt_of_lt_of_le he ((List.pairwise_cons.mp hes).1 e' he')⟩

/-- The rows with a step are the missing ones. -/
theorem filterMap_getLeft_walk {rs : List ρ} {es : List α}
    (hrs : rs.Pairwise (rowKey · < rowKey ·)) (hes : es.Pairwise (key · ≤ key ·)) :
    (walk rowKey key rs es).filterMap Sum.getLeft? = missing rowKey key rs es := by
  induction rs, es using walk_induction rowKey key with
  | rest es => simp [walk_nil_left, missing, List.filterMap_map, Function.comp_def]
  | missing r rs es h ih =>
    have hnot : rowKey r ∉ es.map key := by
      intro hmem
      obtain ⟨e, he, heq⟩ := List.mem_map.mp hmem
      exact (ne_of_lt (forall_lt_of_head hes h e he)) heq.symm
    rw [walk_missing h, missing, List.filter_cons, if_pos (decide_eq_true hnot)]
    exact congrArg _ (ih (List.pairwise_cons.mp hrs).2 hes)
  | eq r rs e es h ih =>
    obtain ⟨hafter, hrs⟩ := List.pairwise_cons.mp hrs
    have hmem : rowKey r ∈ (e :: es).map key := h ▸ List.mem_cons_self
    have hrows : missing rowKey key (r :: rs) (e :: es) = missing rowKey key rs (e :: es) := by
      rw [missing, List.filter_cons, if_neg (by rwa [decide_eq_true_eq, not_not])]
      rfl
    rw [walk_eq h, hrows, missing_cons_of_lt es fun r' hr' => h ▸ hafter r' hr']
    exact ih hrs (List.pairwise_cons.mp hes).2
  | gt r rs e es h ih =>
    have hbefore : ∀ r' ∈ r :: rs, key e < rowKey r' :=
      List.forall_mem_cons.mpr ⟨h, fun r' hr' =>
        lt_trans h ((List.pairwise_cons.mp hrs).1 r' hr')⟩
    rw [walk_gt h, missing_cons_of_lt es hbefore]
    exact ih hrs (List.pairwise_cons.mp hes).2

/-- A row of a step is a row of the table. -/
theorem mem_of_inl_mem_walk {r : ρ} {rs : List ρ} {es : List α}
    (hrs : rs.Pairwise (rowKey · < rowKey ·)) (hes : es.Pairwise (key · ≤ key ·))
    (h : .inl r ∈ walk rowKey key rs es) : r ∈ rs := by
  have hrow : r ∈ (walk rowKey key rs es).filterMap Sum.getLeft? :=
    List.mem_filterMap.mpr ⟨.inl r, h, rfl⟩
  rw [filterMap_getLeft_walk hrs hes] at hrow
  exact (List.mem_filter.mp hrow).1

/-- An element of a step is one of the list. -/
theorem mem_of_inr_mem_walk {rs : List ρ} {e : α} {es : List α}
    (h : .inr e ∈ walk rowKey key rs es) : e ∈ es := by
  have helement : e ∈ (walk rowKey key rs es).filterMap Sum.getRight? :=
    List.mem_filterMap.mpr ⟨.inr e, h, rfl⟩
  rwa [filterMap_getRight_walk] at helement

/-- A bound of the rows and the elements is one of the steps. -/
theorem le_of_mem_walk {k : κ} {rs : List ρ} {es : List α} (hrs : ∀ r ∈ rs, k ≤ rowKey r)
    (hes : ∀ e ∈ es, k ≤ key e) : ∀ s ∈ walk rowKey key rs es, k ≤ stepKey rowKey key s := by
  induction rs, es using walk_induction rowKey key with
  | rest es =>
    rw [walk_nil_left, List.forall_mem_map]
    exact hes
  | missing r rs es h ih =>
    obtain ⟨hr, hrs⟩ := List.forall_mem_cons.mp hrs
    rw [walk_missing h]
    exact List.forall_mem_cons.mpr ⟨hr, ih hrs hes⟩
  | eq r rs e es h ih =>
    rw [walk_eq h]
    exact List.forall_mem_cons.mpr ⟨hes e List.mem_cons_self,
      ih (List.forall_mem_cons.mp hrs).2 (List.forall_mem_cons.mp hes).2⟩
  | gt r rs e es h ih =>
    obtain ⟨he, hes⟩ := List.forall_mem_cons.mp hes
    rw [walk_gt h]
    exact List.forall_mem_cons.mpr ⟨he, ih hrs hes⟩

/-- The steps are in the order of their keys. -/
theorem pairwise_walk {rs : List ρ} {es : List α} (hrs : rs.Pairwise (rowKey · < rowKey ·))
    (hes : es.Pairwise (key · ≤ key ·)) :
    (walk rowKey key rs es).Pairwise (stepKey rowKey key · ≤ stepKey rowKey key ·) := by
  induction rs, es using walk_induction rowKey key with
  | rest es =>
    rw [walk_nil_left, List.pairwise_map]
    exact hes
  | missing r rs es h ih =>
    obtain ⟨hafter, hrest⟩ := List.pairwise_cons.mp hrs
    rw [walk_missing h]
    exact List.pairwise_cons.mpr ⟨le_of_mem_walk (fun r' hr' => le_of_lt (hafter r' hr'))
      (fun e he => le_of_lt (forall_lt_of_head hes h e he)), ih hrest hes⟩
  | eq r rs e es h ih =>
    obtain ⟨hafter, hrest⟩ := List.pairwise_cons.mp hrs
    obtain ⟨hlater, hes⟩ := List.pairwise_cons.mp hes
    rw [walk_eq h]
    refine List.pairwise_cons.mpr ⟨le_of_mem_walk (fun r' hr' => ?_) hlater, ih hrest hes⟩
    show key e ≤ rowKey r'
    rw [← h]
    exact le_of_lt (hafter r' hr')
  | gt r rs e es h ih =>
    obtain ⟨hlater, hes⟩ := List.pairwise_cons.mp hes
    rw [walk_gt h]
    refine List.pairwise_cons.mpr ⟨le_of_mem_walk ?_ hlater, ih hrs hes⟩
    exact List.forall_mem_cons.mpr ⟨le_of_lt h, fun r' hr' =>
      le_of_lt (lt_trans h ((List.pairwise_cons.mp hrs).1 r' hr'))⟩

/-- A list of steps is a permutation of its rows and its elements. -/
theorem perm_parts (steps : List (ρ ⊕ α)) :
    steps.Perm ((steps.filterMap Sum.getRight?).map .inr ++
      (steps.filterMap Sum.getLeft?).map .inl) := by
  induction steps with
  | nil => exact .nil
  | cons step steps ih =>
    cases step with
    | inl r =>
      have hrow : (Sum.inl r :: steps).filterMap Sum.getLeft? = r :: steps.filterMap Sum.getLeft? :=
        rfl
      have helement : (Sum.inl r :: steps).filterMap Sum.getRight? =
          steps.filterMap (Sum.getRight? (α := ρ)) := rfl
      rw [hrow, helement, List.map_cons]
      exact (ih.cons _).trans List.perm_middle.symm
    | inr e => exact ih.cons _

/-- **The merge**: the elements, and the rows that are missing. -/
theorem walk_perm {rs : List ρ} {es : List α} (hrs : rs.Pairwise (rowKey · < rowKey ·))
    (hes : es.Pairwise (key · ≤ key ·)) :
    (walk rowKey key rs es).Perm (es.map .inr ++ (missing rowKey key rs es).map .inl) := by
  have hparts := perm_parts (walk rowKey key rs es)
  rwa [filterMap_getRight_walk, filterMap_getLeft_walk hrs hes] at hparts

end TableMerge
