import Mathlib.Data.Finset.Card
import Mathlib.Data.List.Nodup
import Mathlib.Data.Finset.Basic

/-!
# Arrays with a counter

A C array of which only the first entries count. A new entry goes behind them, and an entry is
removed by moving the last one into its place. If the entries are distinct, these operations
insert into a set and delete from it, whatever the order of the entries.
-/

/-- An array and the number of entries that count. -/
structure SwapArray (α : Type) where
  cells : ℕ → α
  count : ℕ

namespace SwapArray

variable {α : Type}

/-- The entries that count. -/
def entries (a : SwapArray α) : List α := (List.range a.count).map a.cells

/-- A new last entry. -/
def push (a : SwapArray α) (x : α) : SwapArray α :=
  ⟨fun j => if j = a.count then x else a.cells j, a.count + 1⟩

/-- Replace an entry by the last one. -/
def removeAt (a : SwapArray α) (i : ℕ) : SwapArray α :=
  ⟨fun j => if j = i then a.cells (a.count - 1) else a.cells j, a.count - 1⟩

/-- Is the value among the entries? -/
def contains [DecidableEq α] (a : SwapArray α) (x : α) : Bool :=
  (List.range a.count).any fun i => a.cells i = x

/-- Remove the first entry with some value, if there is one. -/
def removeFirst [DecidableEq α] (a : SwapArray α) (x : α) : SwapArray α :=
  match (List.range a.count).find? fun i => a.cells i = x with
  | some i => a.removeAt i
  | none => a

/-- An entry is in one of the cells that count. -/
theorem mem_entries {a : SwapArray α} {x : α} :
    x ∈ a.entries ↔ ∃ i < a.count, a.cells i = x := by
  simp [entries]

/-- There are as many entries as are counted. -/
@[simp] theorem entries_length (a : SwapArray α) : a.entries.length = a.count := by simp [entries]

/-- The entries are distinct if different places hold different values. -/
theorem nodup_entries {a : SwapArray α} :
    a.entries.Nodup ↔ ∀ i < a.count, ∀ j < a.count, a.cells i = a.cells j → i = j := by
  rw [entries, List.nodup_map_iff_inj_on List.nodup_range]
  simp only [List.mem_range]

/-- A pushed element is one more entry. -/
theorem mem_push {a : SwapArray α} {x y : α} : y ∈ (a.push x).entries ↔ y = x ∨ y ∈ a.entries := by
  have hsame : (List.range a.count).map (a.push x).cells = a.entries := by
    refine List.map_congr_left fun i hi => ?_
    have hne : i ≠ a.count := (List.mem_range.mp hi).ne
    simp [push, hne]
  have hlast : (a.push x).cells a.count = x := by simp [push]
  rw [entries, show (a.push x).count = a.count + 1 from rfl, List.range_succ, List.map_append,
    hsame, List.map_singleton, hlast, List.mem_append, List.mem_singleton, or_comm]

/-- Without duplicates, if it was not there. -/
theorem nodup_push {a : SwapArray α} {x : α} (h : a.entries.Nodup) (hx : x ∉ a.entries) :
    (a.push x).entries.Nodup := by
  rw [nodup_entries] at h ⊢
  have hnew : ∀ i < a.count, a.cells i ≠ x := fun i hi heq => hx (mem_entries.mpr ⟨i, hi, heq⟩)
  intro i hi j hj hij
  simp only [push] at hi hj hij
  split_ifs at hij with hi' hj' hj'
  · omega
  · exact absurd hij.symm (hnew j (by omega))
  · exact absurd hij (hnew i (by omega))
  · exact h i (by omega) j (by omega) hij

/-- Removing an entry makes no duplicates. -/
theorem nodup_removeAt {a : SwapArray α} {i : ℕ} (h : a.entries.Nodup) (hi : i < a.count) :
    (a.removeAt i).entries.Nodup := by
  rw [nodup_entries] at h ⊢
  intro j hj k hk hjk
  simp only [removeAt] at hj hk hjk
  split_ifs at hjk with hj' hk' hk'
  · omega
  · have := h (a.count - 1) (by omega) k (by omega) hjk
    omega
  · have := h j (by omega) (a.count - 1) (by omega) hjk
    omega
  · exact h j (by omega) k (by omega) hjk

/-- Among distinct entries just the one removed goes. -/
theorem mem_removeAt {a : SwapArray α} {i : ℕ} (h : a.entries.Nodup) (hi : i < a.count) {x : α} :
    x ∈ (a.removeAt i).entries ↔ x ∈ a.entries ∧ x ≠ a.cells i := by
  rw [nodup_entries] at h
  simp only [mem_entries]
  constructor
  · rintro ⟨j, hj, rfl⟩
    simp only [removeAt] at hj ⊢
    split_ifs with hji
    · refine ⟨⟨a.count - 1, by omega, rfl⟩, fun heq => ?_⟩
      have := h (a.count - 1) (by omega) i hi heq
      omega
    · refine ⟨⟨j, by omega, rfl⟩, fun heq => hji (h j (by omega) i hi heq)⟩
  · rintro ⟨⟨j, hj, rfl⟩, hne⟩
    have hji : j ≠ i := by
      rintro rfl
      exact hne rfl
    by_cases hlast : j = a.count - 1
    · refine ⟨i, ?_, ?_⟩
      · simp only [removeAt]
        omega
      · simp [removeAt, hlast]
    · refine ⟨j, ?_, ?_⟩
      · simp only [removeAt]
        omega
      · simp [removeAt, hji]

/-- A pass over the places from `i` on that removes each entry that is not to be kept. The entry
that is moved to the place is not looked at. -/
def removeFrom (keep : α → Bool) : ℕ → ℕ → SwapArray α → SwapArray α
  | 0, _, a => a
  | rounds + 1, i, a =>
    if i < a.count then
      if keep (a.cells i) then removeFrom keep rounds (i + 1) a
      else removeFrom keep rounds (i + 1) (a.removeAt i)
    else a

/-- What such a pass makes of a list. -/
def passed (keep : α → Bool) : List α → List α
  | [] => []
  | x :: rest =>
    if keep x then x :: passed keep rest
    else rest.getLast?.toList ++ passed keep rest.dropLast
  termination_by l => l.length
  decreasing_by
    · exact Nat.lt_succ_self _
    · rw [List.length_dropLast, List.length_cons]
      omega

/-- Nothing passes from nothing. -/
theorem passed_nil (keep : α → Bool) : passed keep [] = [] := by rw [passed]

/-- The first places and those behind them. -/
theorem entries_eq_append (a : SwapArray α) {n m : ℕ} (h : a.count = n + m) :
    a.entries = (List.range n).map a.cells ++ (List.range m).map fun k => a.cells (n + k) := by
  rw [entries, h, List.range_add, List.map_append, List.map_map]
  rfl

/-- The first entries. -/
theorem take_entries (a : SwapArray α) {n m : ℕ} (h : a.count = n + m) :
    a.entries.take n = (List.range n).map a.cells := by
  rw [a.entries_eq_append h, List.take_left' (by simp)]

/-- The other ones. -/
theorem drop_entries (a : SwapArray α) {n m : ℕ} (h : a.count = n + m) :
    a.entries.drop n = (List.range m).map fun k => a.cells (n + k) := by
  rw [a.entries_eq_append h, List.drop_left' (by simp)]

/-- They begin with an entry, if there are more. -/
theorem drop_entries_cons (a : SwapArray α) {i : ℕ} (hi : i < a.count) :
    a.entries.drop i = a.cells i :: a.entries.drop (i + 1) := by
  have hlength : i < a.entries.length := by simpa using hi
  have hget : a.entries[i] = a.cells i := by simp [entries]
  rw [← hget, List.getElem_cons_drop]

/-- Removing at a place leaves alone the places before it, moves the last entry there, and leaves
the others behind it. -/
theorem entries_removeAt (a : SwapArray α) {i : ℕ} (hi : i < a.count) :
    (a.removeAt i).entries = a.entries.take i ++ ((a.entries.drop (i + 1)).getLast?.toList ++
      (a.entries.drop (i + 1)).dropLast) := by
  obtain ⟨m, hm⟩ : ∃ m, a.count = i + 1 + m := ⟨a.count - (i + 1), by omega⟩
  have hbefore : (List.range i).map (a.removeAt i).cells = a.entries.take i := by
    rw [a.take_entries (m := 1 + m) (by omega)]
    refine List.map_congr_left fun j hj => if_neg ?_
    exact (List.mem_range.mp hj).ne
  cases m with
  | zero =>
    have hcount : (a.removeAt i).count = i + 0 := by
      show a.count - 1 = i + 0
      omega
    rw [a.drop_entries hm, (a.removeAt i).entries_eq_append hcount, hbefore]
    rfl
  | succ m =>
    have hcount : (a.removeAt i).count = i + (1 + m) := by
      show a.count - 1 = i + (1 + m)
      omega
    have hlast : (a.removeAt i).cells i = a.cells (i + 1 + m) := by
      show (if i = i then _ else _) = _
      rw [if_pos rfl]
      congr 1
      omega
    rw [a.drop_entries hm, (a.removeAt i).entries_eq_append hcount, hbefore, List.range_succ,
      List.range_add, List.map_append, List.map_append, List.map_map, List.map_singleton,
      List.getLast?_concat, List.dropLast_concat]
    refine congrArg (a.entries.take i ++ ·) ?_
    show (a.removeAt i).cells i :: _ = _
    rw [hlast]
    refine congrArg (a.cells (i + 1 + m) :: ·) (List.map_congr_left fun k _ => ?_)
    show (if i + (1 + k) = i then _ else _) = _
    rw [if_neg (by omega), Nat.add_assoc]

/-- Removing at a place takes the entry there out, and no other. -/
theorem perm_removeAt (a : SwapArray α) {i : ℕ} (hi : i < a.count) :
    (a.cells i :: (a.removeAt i).entries).Perm a.entries := by
  have hsplit : a.entries = a.entries.take i ++ a.cells i :: a.entries.drop (i + 1) := by
    rw [← a.drop_entries_cons hi, List.take_append_drop]
  have hrest : ((a.entries.drop (i + 1)).getLast?.toList ++
      (a.entries.drop (i + 1)).dropLast).Perm (a.entries.drop (i + 1)) := by
    rcases (a.entries.drop (i + 1)).eq_nil_or_concat' with hnil | ⟨front, x, hconcat⟩
    · rw [hnil]
      exact .refl _
    · rw [hconcat, List.getLast?_concat, List.dropLast_concat]
      exact List.perm_append_comm
  calc (a.cells i :: (a.removeAt i).entries)
    _ = a.cells i :: (a.entries.take i ++ ((a.entries.drop (i + 1)).getLast?.toList ++
        (a.entries.drop (i + 1)).dropLast)) := by rw [a.entries_removeAt hi]
    _ |>.Perm (a.entries.take i ++ a.cells i :: ((a.entries.drop (i + 1)).getLast?.toList ++
        (a.entries.drop (i + 1)).dropLast)) := List.perm_middle.symm
    _ |>.Perm (a.entries.take i ++ a.cells i :: a.entries.drop (i + 1)) :=
      (hrest.cons _).append_left _
    _ = a.entries := hsplit.symm

/-- The pass over the array is the pass over the list. -/
theorem entries_removeFrom (keep : α → Bool) (rounds i : ℕ) (a : SwapArray α)
    (h : a.count - i ≤ rounds) :
    (removeFrom keep rounds i a).entries =
      a.entries.take i ++ passed keep (a.entries.drop i) := by
  have hend (a : SwapArray α) (i : ℕ) (hi : a.count ≤ i) :
      a.entries = a.entries.take i ++ passed keep (a.entries.drop i) := by
    rw [List.take_of_length_le (by simpa using hi), List.drop_eq_nil_of_le (by simpa using hi),
      passed_nil, List.append_nil]
  induction rounds generalizing i a with
  | zero => exact hend a i (by omega)
  | succ rounds ih =>
    rw [removeFrom]
    by_cases hi : i < a.count
    · have hlength : (a.entries.take i).length = i := by simp [hi.le]
      rw [if_pos hi, a.drop_entries_cons hi, passed]
      by_cases hkeep : keep (a.cells i) = true
      · have htake : a.entries.take (i + 1) = a.entries.take i ++ [a.cells i] := by
          obtain ⟨m, hm⟩ : ∃ m, a.count = i + 1 + m := ⟨a.count - (i + 1), by omega⟩
          rw [a.take_entries hm, a.take_entries (m := 1 + m) (by omega), List.range_succ,
            List.map_append, List.map_singleton]
        rw [if_pos hkeep, if_pos hkeep, ih _ _ (by omega), htake, List.append_assoc,
          List.singleton_append]
      · rw [if_neg hkeep, if_neg hkeep, ih _ _ (by show a.count - 1 - (i + 1) ≤ rounds; omega),
          a.entries_removeAt hi]
        -- what is moved to place `i` is passed over
        rcases (a.entries.drop (i + 1)).eq_nil_or_concat' with hrest | ⟨front, y, hrest⟩
        · rw [hrest, List.getLast?_nil, Option.toList_none, List.dropLast_nil, List.append_nil,
            List.append_nil, List.nil_append, List.take_of_length_le (by omega),
            List.drop_eq_nil_of_le (by omega)]
        · rw [hrest, List.getLast?_concat, List.dropLast_concat, Option.toList_some,
            List.singleton_append, List.singleton_append, List.take_append, List.drop_append,
            hlength, List.take_of_length_le (by omega), List.drop_eq_nil_of_le (by omega),
            Nat.add_sub_cancel_left]
          simp
    · rw [if_neg hi]
      exact hend a i (by omega)

/-- A pass loses nothing that is to be kept. -/
theorem mem_passed_of_keep {keep : α → Bool} {l : List α} {x : α} (h : x ∈ l)
    (hx : keep x = true) : x ∈ passed keep l := by
  fun_induction passed keep l with
  | case1 => cases h
  | case2 y rest hy ih =>
    rcases List.mem_cons.mp h with rfl | hrest
    · exact List.mem_cons_self
    · exact List.mem_cons_of_mem _ (ih hrest)
  | case3 y rest hy ih =>
    have hrest : x ∈ rest := (List.mem_cons.mp h).resolve_left fun heq => hy (heq ▸ hx)
    rcases rest.eq_nil_or_concat' with rfl | ⟨front, z, rfl⟩
    · cases hrest
    · rw [List.dropLast_concat] at ih ⊢
      rw [List.getLast?_concat, Option.toList_some, List.singleton_append, List.mem_cons]
      rcases List.mem_append.mp hrest with hfront | hz
      · exact Or.inr (ih hfront)
      · exact Or.inl (List.mem_singleton.mp hz)

/-- Everything that is left is to be kept exactly if that is so for the last entries, one fewer of
them than there are entries to remove. -/
theorem forall_mem_passed_iff (keep : α → Bool) (l : List α) :
    (∀ x ∈ passed keep l, keep x = true) ↔
      ∀ x ∈ l.drop (l.length + 1 - l.countP fun x => !keep x), keep x = true := by
  fun_induction passed keep l with
  | case1 => simp
  | case2 y rest hy ih =>
    have hcount := List.countP_le_length (p := fun x => !keep x) (l := rest)
    have hindex : (y :: rest).length + 1 - (y :: rest).countP (fun x => !keep x) =
        rest.length + 1 - rest.countP (fun x => !keep x) + 1 := by
      rw [List.countP_cons_of_neg (by simp [hy]), List.length_cons]
      omega
    rw [List.forall_mem_cons, ih, hindex, List.drop_succ_cons]
    exact and_iff_right hy
  | case3 y rest hy ih =>
    rcases rest.eq_nil_or_concat' with rfl | ⟨front, z, rfl⟩
    · simp [passed_nil, hy]
    · rw [List.dropLast_concat] at ih ⊢
      rw [List.getLast?_concat, Option.toList_some, List.singleton_append, List.forall_mem_cons, ih,
        List.countP_cons_of_pos (by simp [hy]), List.countP_append, List.length_cons,
        List.length_append, List.length_singleton]
      have hcount := List.countP_le_length (p := fun x => !keep x) (l := front)
      generalize front.countP (fun x => !keep x) = removed at ih hcount ⊢
      by_cases hz : keep z = true
      · rw [List.countP_singleton, if_neg (by simp [hz])]
        by_cases hzero : removed = 0
        · rw [List.drop_eq_nil_of_le (by omega), List.drop_eq_nil_of_le (by simp; omega)]
          simp [hz]
        · rw [show front.length + 1 + 1 + 1 - (removed + 0 + 1) = front.length + 1 - removed + 1 by
            omega, List.drop_succ_cons, List.drop_append_of_le_length (by omega),
            List.forall_mem_append, List.forall_mem_singleton]
          exact and_comm
      · -- the last entry is moved, so it stays, and it is among the last ones
        rw [List.countP_singleton, if_pos (by simp [hz])]
        refine iff_of_false (fun h => hz h.1) fun h => hz (h z ?_)
        rw [← List.cons_append, List.drop_append_of_le_length (by simp)]
        exact List.mem_append_right _ (List.mem_singleton_self z)

variable [DecidableEq α]

/-- The search finds an element if and only if it is an entry. -/
theorem contains_iff {a : SwapArray α} {x : α} : a.contains x = true ↔ x ∈ a.entries := by
  simp [contains, mem_entries]

/-- Removing a value finds it, or changes nothing. -/
theorem removeFirst_cases (a : SwapArray α) (x : α) :
    (∃ i < a.count, a.cells i = x ∧ a.removeFirst x = a.removeAt i) ∨
      (x ∉ a.entries ∧ a.removeFirst x = a) := by
  unfold removeFirst
  cases hfind : (List.range a.count).find? fun i => a.cells i = x with
  | some i =>
    have hi : i < a.count := List.mem_range.mp (List.mem_of_find?_eq_some hfind)
    have hx : a.cells i = x := by simpa using List.find?_some hfind
    exact Or.inl ⟨i, hi, hx, rfl⟩
  | none =>
    refine Or.inr ⟨fun hmem => ?_, rfl⟩
    obtain ⟨i, hi, hx⟩ := mem_entries.mp hmem
    exact List.find?_eq_none.mp hfind i (List.mem_range.mpr hi) (by simpa using hx)

/-- Removing an element makes no duplicates. -/
theorem nodup_removeFirst {a : SwapArray α} (h : a.entries.Nodup) (x : α) :
    (a.removeFirst x).entries.Nodup := by
  rcases removeFirst_cases a x with ⟨i, hi, -, heq⟩ | ⟨-, heq⟩
  · rw [heq]
    exact nodup_removeAt h hi
  · rwa [heq]

/-- Without duplicates it is the only one that goes. -/
theorem mem_removeFirst {a : SwapArray α} (h : a.entries.Nodup) {x y : α} :
    y ∈ (a.removeFirst x).entries ↔ y ∈ a.entries ∧ y ≠ x := by
  rcases removeFirst_cases a x with ⟨i, hi, hx, heq⟩ | ⟨hnot, heq⟩
  · rw [heq, mem_removeAt h hi, hx]
  · rw [heq]
    refine ⟨fun hy => ⟨hy, fun hyx => hnot (hyx ▸ hy)⟩, And.left⟩

/-- There are not more entries afterwards. -/
theorem count_removeFirst_le (a : SwapArray α) (x : α) : (a.removeFirst x).count ≤ a.count := by
  rcases removeFirst_cases a x with ⟨i, -, -, heq⟩ | ⟨-, heq⟩
  · rw [heq]
    exact Nat.sub_le a.count 1
  · rw [heq]

/-- The entries as a set. -/
def toFinset (a : SwapArray α) : Finset α := a.entries.toFinset

/-- The set has the entries as its elements. -/
@[simp] theorem mem_toFinset {a : SwapArray α} {x : α} : x ∈ a.toFinset ↔ x ∈ a.entries :=
  List.mem_toFinset

/-- Without duplicates it has as many as are counted. -/
theorem card_toFinset {a : SwapArray α} (h : a.entries.Nodup) : a.toFinset.card = a.count := by
  rw [toFinset, List.toFinset_card_of_nodup h, entries_length]

/-- A pushed element is inserted. -/
theorem toFinset_push (a : SwapArray α) (x : α) : (a.push x).toFinset = insert x a.toFinset := by
  ext y
  simp [mem_push]

/-- A removed entry is erased. -/
theorem toFinset_removeAt {a : SwapArray α} {i : ℕ} (h : a.entries.Nodup) (hi : i < a.count) :
    (a.removeAt i).toFinset = a.toFinset.erase (a.cells i) := by
  ext y
  simp [mem_removeAt h hi, and_comm]

/-- So is a removed element. -/
theorem toFinset_removeFirst {a : SwapArray α} (h : a.entries.Nodup) (x : α) :
    (a.removeFirst x).toFinset = a.toFinset.erase x := by
  ext y
  simp [mem_removeFirst h, and_comm]

end SwapArray
