import Processx.Library.Descent
import Mathlib.Data.List.GetD
import Mathlib.Data.Int.Notation

/-!
# Vectors of process ids

A vector has storage that is doubled when it is full. `processx_vector_rooted_tree()` collects the
descendants of a process in such a vector, in passes over the table of all processes. The frontier
of a pass is the part of the result behind an index, and the pass itself adds to it.
-/

namespace Processx

open Descent

/-- `processx_vector_t`: the storage, and the number of elements in it. -/
structure PidVector where
  stor : List ℤ
  size : ℕ
  size_le : size ≤ stor.length

namespace PidVector

/-- The elements. -/
def contents (v : PidVector) : List ℤ := v.stor.take v.size

/-- `VECTOR(v)[i]` -/
def elem (v : PidVector) (i : ℕ) : ℤ := v.stor.getD i 0

/-- `processx_vector_clear()` -/
def clear (v : PidVector) : PidVector := ⟨v.stor, 0, Nat.zero_le _⟩

/-- `processx_vector_reserve()`. `S_realloc()` copies the storage if it is to grow, and fills it up
with zeros. -/
def reserve (v : PidVector) (size : ℕ) : PidVector :=
  if h : size ≤ v.size then v
  else
    { stor := (v.stor ++ List.replicate (size - v.stor.length) 0).take size
      size := v.size
      size_le := by
        rw [List.length_take, List.length_append, List.length_replicate]
        omega }

/-- A vector without room behind its elements. -/
def ofList (elems : List ℤ) : PidVector := ⟨elems, elems.length, le_rfl⟩

/-- "full, allocate more storage" -/
def grow (v : PidVector) : PidVector :=
  if v.stor.length = v.size then v.reserve (if v.size * 2 = 0 then 1 else v.size * 2) else v

/-- To reserve more storage leaves the elements alone. -/
theorem reserve_eq {v : PidVector} {size : ℕ} (h : v.size < size) :
    (v.reserve size).size = v.size ∧ (v.reserve size).stor.take v.size = v.stor.take v.size ∧
      (v.size = v.stor.length → (v.reserve size).stor.length = size) := by
  have hle := v.size_le
  rw [reserve, dif_neg (Nat.not_le_of_lt h)]
  refine ⟨rfl, ?_, fun hfull => ?_⟩
  · rw [List.take_take, List.take_append_of_le_length (by omega), Nat.min_eq_left h.le]
  · rw [List.length_take, List.length_append, List.length_replicate]
    omega

/-- A vector that is made to grow has the same elements, and room behind them. -/
theorem grow_eq (v : PidVector) :
    v.grow.size = v.size ∧ v.grow.stor.take v.size = v.stor.take v.size ∧
      v.size < v.grow.stor.length := by
  unfold grow
  split
  · rename_i hfull
    have hmore : v.size < if v.size * 2 = 0 then 1 else v.size * 2 := by
      split <;> omega
    obtain ⟨hsize, htake, hlength⟩ := reserve_eq hmore
    exact ⟨hsize, htake, (hlength hfull.symm).symm ▸ hmore⟩
  · exact ⟨rfl, rfl, Nat.lt_of_le_of_ne v.size_le (Ne.symm ‹_›)⟩

/-- `processx_vector_push_back()` -/
def pushBack (v : PidVector) (e : ℤ) : PidVector where
  stor := v.grow.stor.set v.grow.size e
  size := v.grow.size + 1
  size_le := by
    rw [List.length_set, v.grow_eq.1]
    exact v.grow_eq.2.2

/-- `processx_vector_find()` -/
def find (v : PidVector) (e : ℤ) (start : ℕ) : Bool :=
  if start < v.size then
    if v.elem start = e then true else v.find e (start + 1)
  else false
  termination_by v.size - start

/-- A vector has as many elements as its size says. -/
theorem length_contents (v : PidVector) : v.contents.length = v.size := by
  rw [contents, List.length_take, Nat.min_eq_left v.size_le]

/-- What stands from an index on is the element there and what stands behind it. -/
theorem contents_drop {v : PidVector} {i : ℕ} (h : i < v.size) :
    v.contents.drop i = v.elem i :: v.contents.drop (i + 1) := by
  have hlt : i < v.contents.length := v.length_contents.symm ▸ h
  have hle := v.size_le
  have helem : v.elem i = v.contents[i] := by
    simp only [elem, contents, List.getElem_take]
    rw [List.getD_eq_getElem _ _ (by omega)]
  rw [List.drop_eq_getElem_cons hlt, helem]

/-- The elements one by one. -/
theorem contents_eq (v : PidVector) : v.contents = (List.range v.size).map v.elem := by
  refine List.ext_getElem (by rw [length_contents, List.length_map, List.length_range]) ?_
  intro i hi _
  have hcons := contents_drop (v.length_contents ▸ hi)
  rw [List.drop_eq_getElem_cons hi] at hcons
  simpa using (List.cons.inj hcons).1

/-- `pushBack()` appends an element. -/
theorem pushBack_contents (v : PidVector) (e : ℤ) :
    (v.pushBack e).contents = v.contents ++ [e] := by
  obtain ⟨hsize, htake, hlt⟩ := v.grow_eq
  simp only [contents, pushBack, hsize]
  rw [List.take_succ_eq_append_getElem (by simpa using hlt), List.getElem_set_self,
    List.take_set_of_le le_rfl, htake]

/-- `clear()` leaves none. -/
theorem clear_contents (v : PidVector) : v.clear.contents = [] := rfl

/-- The search goes over the elements from an index on. -/
theorem find_eq (v : PidVector) (e : ℤ) (start : ℕ) :
    v.find e start = true ↔ e ∈ v.contents.drop start := by
  fun_induction v.find e start with
  | case1 start hlt heq => simp [contents_drop hlt, heq]
  | case2 start hlt hne ih => simp [contents_drop hlt, ih, Ne.symm hne]
  | case3 start hle =>
    have hnil : v.contents.drop start = [] :=
      List.drop_eq_nil_of_le (v.length_contents.le.trans (Nat.le_of_not_lt hle))
    simp [hnil]

end PidVector

open PidVector

/-- A pass over the table. -/
def treePass (nodes parents : PidVector) (done : ℕ) (result : PidVector) : PidVector :=
  (List.range nodes.size).foldl (fun result i =>
    if result.find (parents.elem i) done then result.pushBack (nodes.elem i) else result) result

/-- The passes of `processx_vector_rooted_tree()`, at most some of them. -/
def treeLoop (nodes parents : PidVector) : ℕ → ℕ → ℕ → PidVector → Option PidVector
  | 0, _, _, _ => none
  | passes + 1, done, nextDone, result =>
    if done < nextDone then
      let result := treePass nodes parents done result
      treeLoop nodes parents passes nextDone result.size result
    else some result

/-- `processx_vector_rooted_tree()` -/
def rootedTree (passes : ℕ) (root : ℤ) (nodes parents result : PidVector) : Option PidVector :=
  treeLoop nodes parents passes 0 1 (result.clear.pushBack root)

/-- The rows of the table. -/
def tableRows (nodes parents : PidVector) : List (ℤ × ℤ) := nodes.contents.zip parents.contents

variable {nodes parents : PidVector}

/-- The rows in the order of their indices. -/
theorem tableRows_eq (h : parents.size = nodes.size) :
    tableRows nodes parents =
      (List.range nodes.size).map fun i => (nodes.elem i, parents.elem i) := by
  rw [tableRows, nodes.contents_eq, parents.contents_eq, h, List.zip_map']

/-- The nodes of the rows are the nodes of the vector. -/
theorem map_fst_tableRows (h : parents.size = nodes.size) :
    (tableRows nodes parents).map Prod.fst = nodes.contents := by
  rw [tableRows, List.map_fst_zip]
  rw [length_contents, length_contents, h]

/-- A pass adds to the result what is collected from the rows. -/
theorem treePass_contents (h : parents.size = nodes.size) {result : PidVector}
    {old frontier : List ℤ} (hresult : result.contents = old ++ frontier) :
    (treePass nodes parents old.length result).contents =
      old ++ frontier ++ collect frontier (tableRows nodes parents) [] := by
  rw [treePass, tableRows_eq h]
  generalize hfound : ([] : List ℤ) = found
  replace hresult : result.contents = old ++ frontier ++ found := by
    rw [hresult, ← hfound, List.append_nil]
  clear hfound
  generalize List.range nodes.size = indices
  induction indices generalizing result found with
  | nil => exact hresult
  | cons i indices ih =>
    rw [List.foldl_cons, List.map_cons, collect]
    have hfind : result.find (parents.elem i) old.length = true ↔
        parents.elem i ∈ frontier ++ found := by
      rw [find_eq, hresult, List.append_assoc, List.drop_left]
    refine ih _ ?_
    by_cases hin : parents.elem i ∈ frontier ++ found
    · rw [if_pos (hfind.mpr hin), if_pos hin, pushBack_contents, hresult, List.append_assoc]
    · rw [if_neg (hfind.not.mpr hin), if_neg hin, hresult]

/-- The loop is the search for descendants. -/
theorem treeLoop_eq (h : parents.size = nodes.size) (passes : ℕ) {result : PidVector}
    {old frontier : List ℤ} (hresult : result.contents = old ++ frontier) :
    (treeLoop nodes parents passes old.length result.size result).map contents =
      search (tableRows nodes parents) passes old frontier := by
  induction passes generalizing result old frontier with
  | zero => rfl
  | succ passes ih =>
    have hsize : result.size = old.length + frontier.length := by
      rw [← length_contents, hresult, List.length_append]
    rw [treeLoop, search]
    by_cases hempty : frontier = []
    · have hdone : ¬old.length < result.size := by
        rw [hsize, hempty]
        exact Nat.lt_irrefl _
      rw [if_neg hdone, if_pos hempty, Option.map_some, hresult, hempty, List.append_nil]
    · have hpos := List.length_pos_of_ne_nil hempty
      have hnext := ih (treePass_contents h hresult)
      rw [List.length_append, ← hsize] at hnext
      rw [if_pos (by omega), if_neg hempty]
      exact hnext

/-- `processx_vector_rooted_tree()` is the search from the root. -/
theorem rootedTree_eq (h : parents.size = nodes.size) (passes : ℕ) (root : ℤ)
    (result : PidVector) :
    (rootedTree passes root nodes parents result).map contents =
      search (tableRows nodes parents) passes [] [root] := by
  have hstart : (result.clear.pushBack root).contents = [] ++ [root] := by
    rw [pushBack_contents, clear_contents]
  have hsize : (result.clear.pushBack root).size = 1 := by
    rw [← length_contents, hstart]
    rfl
  have hloop := treeLoop_eq h passes hstart
  rwa [hsize] at hloop

/-- A run that ends with the tree, in both forms. -/
theorem rootedTree_isTree_iff (h : parents.size = nodes.size) (root : ℤ) (result : PidVector) :
    (∃ passes tree, rootedTree passes root nodes parents result = some tree ∧
        IsTree (tableRows nodes parents) root tree.contents) ↔
      ∃ passes tree, search (tableRows nodes parents) passes [] [root] = some tree ∧
        IsTree (tableRows nodes parents) root tree := by
  refine exists_congr fun passes => ?_
  rw [← rootedTree_eq h passes root result]
  simp only [Option.map_eq_some_iff, exists_exists_and_eq_and]

/-- `processx_vector_rooted_tree()` ends with the root and its descendants, each once, if and only
if the root is not a descendant of itself, and in the table a descendant does not stand in front of
one of its children. -/
theorem rootedTree_iff (root : ℤ) (nodes parents result : PidVector)
    (hsize : parents.size = nodes.size) (hnodes : nodes.contents.Nodup) :
    (∃ passes tree, rootedTree passes root nodes parents result = some tree ∧
        IsTree (tableRows nodes parents) root tree.contents) ↔
      ChildrenFirst (tableRows nodes parents) root := by
  rw [rootedTree_isTree_iff hsize, search_iff (by rwa [map_fst_tableRows hsize])]

/-- The process 3 is a child of 2, and stands in front of it. -/
theorem rootedTree_iff_two :
    (ofList [2, 1]).size = (ofList [3, 2]).size ∧ (ofList [3, 2]).contents.Nodup ∧
      ∃ passes tree, rootedTree passes 1 (ofList [3, 2]) (ofList [2, 1]) (ofList []) = some tree ∧
        IsTree (tableRows (ofList [3, 2]) (ofList [2, 1])) 1 tree.contents := by
  have hnodes : (ofList [3, 2]).contents.Nodup := by decide
  refine ⟨rfl, hnodes, (rootedTree_iff 1 (ofList [3, 2]) (ofList [2, 1]) (ofList []) rfl hnodes).mpr
    ⟨?_, ?_⟩⟩
  · intro h
    obtain ⟨parent, hrow, _⟩ := h.exists_row
    revert hrow
    simp [tableRows, ofList, contents]
  · simp [tableRows, ofList, contents]

/-- The process 3 is a child of 2, and stands behind it: it is found twice. -/
theorem rootedTree_twice :
    (¬∃ passes tree, rootedTree passes 1 (ofList [2, 3]) (ofList [1, 2]) (ofList []) = some tree ∧
        IsTree (tableRows (ofList [2, 3]) (ofList [1, 2])) 1 tree.contents) ∧
      (rootedTree 5 1 (ofList [2, 3]) (ofList [1, 2]) (ofList [])).map contents =
        some [1, 2, 3, 3] := by
  have hsize : (ofList [1, 2]).size = (ofList [2, 3]).size := rfl
  constructor
  · rw [rootedTree_isTree_iff hsize, search_iff (by decide)]
    rintro ⟨-, horder⟩
    have hbelow : Below (tableRows (ofList [2, 3]) (ofList [1, 2])) 1 2 := .child (by decide)
    exact (List.pairwise_cons.mp horder).1 (3, 2) List.mem_cons_self hbelow rfl
  · rw [rootedTree_eq hsize]
    decide

end Processx
