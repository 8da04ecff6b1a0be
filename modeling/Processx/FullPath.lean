import Processx.Library.Components
import Mathlib.Data.Nat.Notation

/-!
# Paths without dots

`full_path()` on Unix makes a path absolute, and takes the components `.`, `..` and the empty ones
out of it. Its loop deletes components from the vector that it goes over, and goes back by one
where it deletes two. The result is that of a stack on which `..` takes the last component off.
-/

namespace Processx

open Components

/-- A string, as its characters. -/
abbrev Text := List Char

/-- `strsplit(text, "/")[[1]]`, where `token` is read already. There is no empty string behind the
last slash. -/
def splitPathFrom (token : Text) : Text → List Text
  | [] => if token = [] then [] else [token]
  | c :: text =>
    if c = '/' then token :: splitPathFrom [] text else splitPathFrom (token ++ [c]) text

/-- `strsplit(text, "/")[[1]]` -/
def splitPath (text : Text) : List Text := splitPathFrom [] text

/-- `file.path(dir, path)` -/
def filePath (dir path : Text) : Text := dir ++ '/' :: path

/-- `paste(parts, collapse = "/")` -/
def pastePath (parts : List Text) : Text := List.intercalate ['/'] parts

/-- The path that is taken apart: expanded, and behind the working directory unless it starts with
a slash. -/
def absolutePath (pathExpand : Text → Text) (getwd path : Text) : Text :=
  let path := pathExpand path
  if path.head? = some '/' then path else filePath getwd path

/-- The loop that collapses any `..`, `.` and empty component. The index counts from 0 here, so the
loop starts at 1. -/
def collapseParts (parts : List Text) (i : ℕ) : List Text :=
  if _h : i < parts.length then
    let part := parts[i]
    if part = ['.'] ∨ part = [] then collapseParts (parts.eraseIdx i) i
    else if part = ['.', '.'] then
      if i = 1 then collapseParts (parts.eraseIdx i) i
      else collapseParts ((parts.eraseIdx i).eraseIdx (i - 1)) (i - 1)
    else collapseParts parts (i + 1)
  else parts
  termination_by parts.length - i
  decreasing_by all_goals grind [List.length_eraseIdx]

/-- `full_path()`, on Unix -/
def fullPath (pathExpand : Text → Text) (getwd path : Text) : Text :=
  let parts := splitPath (absolutePath pathExpand getwd path)
  let parts := collapseParts parts 1
  let newPath := pastePath parts
  if newPath = [] then ['/'] else newPath

/-- A component that is left out. -/
def isSkipped (c : Text) : Bool := c = ['.'] ∨ c = []

/-- The component that takes the last one off. -/
def isParent (c : Text) : Bool := c = ['.', '.']

/-- The components of a path, read from left to right on a stack. -/
def normalParts (path : Text) : List Text := evaluate isSkipped isParent [] (path.splitOn '/')

/-- The absolute path with some components. -/
def rootedPath (parts : List Text) : Text := '/' :: List.intercalate ['/'] parts

/-- A round of the loop reads one component. What stands before the index, apart from the root, is
the stack. -/
theorem collapseParts_step (root : Text) (stack : List Text) (c : Text) (rest : List Text) :
    collapseParts (root :: (stack ++ c :: rest)) (stack.length + 1) =
      collapseParts (root :: (visit isSkipped isParent stack c ++ rest))
        ((visit isSkipped isParent stack c).length + 1) := by
  have hlt : stack.length + 1 < (root :: (stack ++ c :: rest)).length := by
    simp only [List.length_cons, List.length_append]
    omega
  have hpart : (root :: (stack ++ c :: rest))[stack.length + 1] = c := by simp
  have herase : (root :: (stack ++ c :: rest)).eraseIdx (stack.length + 1) =
      root :: (stack ++ rest) := by
    rw [List.eraseIdx_cons_succ, List.eraseIdx_append_of_length_le le_rfl, Nat.sub_self,
      List.eraseIdx_cons_zero]
  rw [collapseParts, dif_pos hlt]
  simp only [hpart, herase]
  by_cases hskip : c = ['.'] ∨ c = []
  · rw [if_pos hskip, visit_skip (by simpa [isSkipped] using hskip)]
  rw [if_neg hskip]
  have hskip' : isSkipped c = false := by simpa [isSkipped] using hskip
  by_cases hup : c = ['.', '.']
  · rw [if_pos hup, visit_up hskip' (by simpa [isParent] using hup)]
    rcases List.eq_nil_or_concat stack with rfl | ⟨init, last, rfl⟩
    · rfl
    · rw [if_neg (by simp), List.concat_eq_append, List.dropLast_concat, List.length_append,
        List.length_singleton, Nat.add_sub_cancel, List.eraseIdx_cons_succ, List.append_assoc,
        List.eraseIdx_append_of_length_le le_rfl, Nat.sub_self, List.singleton_append,
        List.eraseIdx_cons_zero]
  · rw [if_neg hup, visit_plain ⟨hskip', by simpa [isParent] using hup⟩, List.length_append,
      List.append_assoc, List.singleton_append, List.length_singleton]

/-- The loop leaves the stack behind the root. -/
theorem collapseParts_eq (root : Text) (stack rest : List Text) :
    collapseParts (root :: (stack ++ rest)) (stack.length + 1) =
      root :: evaluate isSkipped isParent stack rest := by
  induction rest generalizing stack with
  | nil =>
    rw [collapseParts, dif_neg (by simp), List.append_nil, evaluate_nil]
  | cons c rest ih => rw [collapseParts_step, ih, evaluate_cons]

/-- `strsplit()` leaves out an empty string behind the last slash. -/
theorem splitOn_eq_splitPathFrom (token text : Text) (h : '/' ∉ token) :
    (token ++ text).splitOn '/' = splitPathFrom token text ∨
      (token ++ text).splitOn '/' = splitPathFrom token text ++ [[]] := by
  induction text generalizing token with
  | nil =>
    rw [splitPathFrom, List.append_nil]
    split
    · rename_i hnil
      exact .inr (by rw [hnil]; rfl)
    · exact .inl (List.splitOn_eq_singleton h)
  | cons c text ih =>
    rw [splitPathFrom]
    split
    · rename_i hsep
      rw [hsep, List.splitOn_append_cons_self_of_not_mem h]
      have hrest := ih [] List.not_mem_nil
      rw [List.nil_append] at hrest
      exact hrest.imp (fun h => by rw [h]) (fun h => by rw [h]; rfl)
    · rename_i hsep
      have hmem : '/' ∉ token ++ [c] := by
        simp [h, Ne.symm hsep]
      simpa using ih (token ++ [c]) hmem

/-- What it leaves out would be skipped. -/
theorem evaluate_splitPathFrom (stack : List Text) (text : Text) :
    evaluate isSkipped isParent stack (splitPathFrom [] text) =
      evaluate isSkipped isParent stack (text.splitOn '/') := by
  rcases splitOn_eq_splitPathFrom [] text List.not_mem_nil with h | h <;>
    rw [List.nil_append] at h <;> rw [h]
  exact (evaluate_append_skip rfl).symm

/-- The parts of a rooted path are those of the text behind its slash. -/
theorem normalParts_cons_slash (text : Text) :
    normalParts ('/' :: text) = evaluate isSkipped isParent [] (text.splitOn '/') := by
  have hsplit : ('/' :: text).splitOn '/' = [] :: text.splitOn '/' :=
    List.splitOn_append_cons_self [] text
  rw [normalParts, hsplit, evaluate_cons, visit_skip rfl]

/-- The components that are kept are neither empty nor dots, and there is no slash in them. -/
theorem of_mem_normalParts {path c : Text} (h : c ∈ normalParts path) :
    (c ≠ [] ∧ c ≠ ['.'] ∧ c ≠ ['.', '.']) ∧ '/' ∉ c := by
  constructor
  · have hplain : isSkipped c = false ∧ isParent c = false := plain_of_mem_evaluate c h
    simp only [isSkipped, isParent, decide_eq_false_iff_not, not_or] at hplain
    exact ⟨hplain.1.2, hplain.1.1, hplain.2⟩
  · have hslash : ∀ d ∈ path.splitOn '/', Plain isSkipped isParent d → '/' ∉ d :=
      fun d hd _ => not_mem_of_mem_splitOn hd
    exact forall_mem_evaluate (by simp) hslash c h

/-- A path with parts is pasted with a slash in front of each. -/
theorem rootedPath_of_ne_nil {parts : List Text} (h : parts ≠ []) :
    rootedPath parts = pastePath ([] :: parts) := by
  cases parts with
  | nil => exact absurd rfl h
  | cons part parts => simp [rootedPath, pastePath, List.intercalate]

/-- The components of the path with given components. -/
theorem splitOn_tail_rootedPath {parts : List Text} (hne : parts ≠ []) (h : ∀ c ∈ parts, '/' ∉ c) :
    (rootedPath parts).tail.splitOn '/' = parts :=
  List.splitOn_intercalate '/' h hne

/-- An absolute path starts with a slash, if the working directory does. -/
theorem head?_absolutePath {pathExpand : Text → Text} {getwd path : Text}
    (hwd : getwd.head? = some '/') :
    (absolutePath pathExpand getwd path).head? = some '/' := by
  simp only [absolutePath]
  split
  · assumption
  · cases getwd with
    | nil => cases hwd
    | cons c getwd => exact hwd

/-- The result is the path with the components that are left on the stack. -/
theorem fullPath_eq {pathExpand : Text → Text} {getwd path : Text}
    (h : (absolutePath pathExpand getwd path).head? = some '/') :
    fullPath pathExpand getwd path =
      rootedPath (normalParts (absolutePath pathExpand getwd path)) := by
  simp only [fullPath]
  rcases habs : absolutePath pathExpand getwd path with _ | ⟨c, text⟩
  · rw [habs] at h
    cases h
  rw [habs] at h
  obtain rfl : c = '/' := by simpa using h
  have hsplit : splitPath ('/' :: text) = [] :: splitPathFrom [] text := rfl
  have hloop := collapseParts_eq [] [] (splitPathFrom [] text)
  rw [List.nil_append, List.length_nil, Nat.zero_add, evaluate_splitPathFrom,
    ← normalParts_cons_slash] at hloop
  rw [hsplit, hloop]
  by_cases hne : normalParts ('/' :: text) = []
  · rw [hne]
    rfl
  · rw [← rootedPath_of_ne_nil hne, if_neg (by simp [rootedPath])]

/-- A path that is made from components is left as it is, whatever the working directory. -/
theorem fullPath_rootedPath {pathExpand : Text → Text} (getwd : Text) {path : Text}
    (hexpand : ∀ p : Text, p.head? ≠ some '~' → pathExpand p = p) :
    fullPath pathExpand getwd (rootedPath (normalParts path)) =
      rootedPath (normalParts path) := by
  have habs : absolutePath pathExpand getwd (rootedPath (normalParts path)) =
      rootedPath (normalParts path) := by
    simp only [absolutePath]
    rw [hexpand _ (by simp [rootedPath])]
    exact if_pos rfl
  rw [fullPath_eq (by rw [habs]; rfl), habs]
  congr 1
  rw [rootedPath, normalParts_cons_slash]
  by_cases hne : normalParts path = []
  · rw [hne]
    rfl
  · rw [List.splitOn_intercalate '/' (fun c hc => (of_mem_normalParts hc).2) hne]
    exact evaluate_evaluate _

/-- A path none of whose components is empty has no trailing slash. -/
theorem getLast?_ne_slash {text : Text} (h : [] ∉ text.splitOn '/') :
    ('/' :: text).getLast? ≠ some '/' := by
  intro hlast
  rcases List.eq_nil_or_concat text with rfl | ⟨init, c, rfl⟩
  · exact h (by simp)
  · rw [List.concat_eq_append] at h hlast
    rw [← List.cons_append, List.getLast?_concat, Option.some.injEq] at hlast
    rw [hlast, List.splitOn_append_cons_self] at h
    exact h (by simp)

/-- `full_path()` returns an absolute path. None of its components is empty, `.` or `..`, and apart
from the root it has no trailing slash. They are the components of the absolute input, evaluated
from left to right on a stack. To take the full path again changes nothing. -/
theorem fullPath_normalises (pathExpand : Text → Text)
    (hexpand : ∀ p : Text, p.head? ≠ some '~' → pathExpand p = p) (getwd : Text)
    (hwd : getwd.head? = some '/') (path : Text) :
    let result := fullPath pathExpand getwd path
    result = rootedPath (evaluate isSkipped isParent []
        ((absolutePath pathExpand getwd path).splitOn '/')) ∧
      result.head? = some '/' ∧
      (result = ['/'] ∨ result.getLast? ≠ some '/' ∧
        ∀ c ∈ result.tail.splitOn '/', c ≠ [] ∧ c ≠ ['.'] ∧ c ≠ ['.', '.']) ∧
      ∀ later, fullPath pathExpand later result = result := by
  have habsolute : (absolutePath pathExpand getwd path).head? = some '/' :=
    head?_absolutePath hwd
  have heq := fullPath_eq habsolute
  simp only [heq]
  refine ⟨rfl, rfl, ?_, fun later => fullPath_rootedPath later hexpand⟩
  by_cases hne : normalParts (absolutePath pathExpand getwd path) = []
  · rw [hne]
    exact .inl rfl
  · have hsplit := splitOn_tail_rootedPath hne fun c hc => (of_mem_normalParts hc).2
    have hparts : ∀ c ∈ (rootedPath (normalParts (absolutePath pathExpand getwd path))).tail.splitOn
        '/', c ≠ [] ∧ c ≠ ['.'] ∧ c ≠ ['.', '.'] := by
      rw [hsplit]
      exact fun c hc => (of_mem_normalParts hc).1
    exact .inr ⟨getLast?_ne_slash fun hnil => (hparts [] hnil).1 rfl, hparts⟩

/-- From `/home/me`, the path `../you//./x/..` is `/home/you`. -/
theorem fullPath_normalises_relative :
    ("/home/me".toList).head? = some '/' ∧
      (∀ p : Text, p.head? ≠ some '~' →
        (fun p : Text => if p = ['~'] then "/home/me".toList else p) p = p) ∧
      fullPath (fun p => if p = ['~'] then "/home/me".toList else p) "/home/me".toList
        "../you//./x/..".toList = "/home/you".toList := by
  have hexpand : ∀ p : Text, p.head? ≠ some '~' →
      (fun p : Text => if p = ['~'] then "/home/me".toList else p) p = p := by
    intro p hp
    refine if_neg ?_
    rintro rfl
    exact hp rfl
  have hfull := (fullPath_normalises (fun p => if p = ['~'] then "/home/me".toList else p) hexpand
    "/home/me".toList (by decide) "../you//./x/..".toList).1
  exact ⟨by decide, hexpand, hfull.trans (by decide)⟩

end Processx
