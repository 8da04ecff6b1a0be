import Processx.Library.Components
import Processx.Win.CommandLine
import Mathlib.Algebra.Group.Nat.Defs
import Mathlib.Data.Int.Notation

/-!
# Searching the path on Windows

`processx__search_path()` looks for a program in the directories of `PATH`. It goes over the text
with two pointers, skips empty entries, and takes off quotes by adding to a pointer and subtracting
from an unsigned length. Pointers into a text are indices here.
-/

namespace Processx

/-- `L';'` -/
def wSemicolon : WChar := 59

/-- `L'\''` -/
def wApostrophe : WChar := 39

/-- `L'/'` -/
def wSlash : WChar := 47

/-- `L':'` -/
def wColon : WChar := 58

/-- `L'.'` -/
def wDot : WChar := 46

/-- The largest `size_t`. -/
def sizeMax : ℕ := 2 ^ 64 - 1

/-- `--n`, for a `size_t`. -/
def sizePred (n : ℕ) : ℕ := if n = 0 then sizeMax else n - 1

/-- `text[i]`. There is a `NUL` behind the text. -/
def wAt (text : List WChar) (i : ℕ) : WChar := text.getD i 0

/-- `wcschr(text + start, c)`, as an index. The terminating `NUL` is found as well. -/
def wcschr (text : List WChar) (start : ℕ) (c : WChar) : Option ℕ :=
  let k := (text.drop start).idxOf c
  if k < (text.drop start).length ∨ c = 0 then some (start + k) else none

/-- `wcsncpy(dest, source, n)`: what it writes. It stops at a `NUL`, and fills up with them. -/
def wcsncpy (source : List WChar) (n : ℕ) : List WChar :=
  source.take n ++ List.replicate (n - source.length) 0

/-- A pointer into a text, and a length. -/
structure Slice where
  start : ℕ
  len : ℕ
  deriving DecidableEq

/-- The characters of a slice. -/
def Slice.of (text : List WChar) (s : Slice) : List WChar := (text.drop s.start).take s.len

/-- What the search asks the operating system and its C library: `GetFileAttributesW()`, which may
fail, and `_wcsnicmp()`. -/
structure Files where
  getFileAttributes : List WChar → Option UInt32
  wcsnicmp : List WChar → List WChar → ℕ → ℤ

variable (sys : Files)

/-- The first part of `processx__search_path_join_test()`: how much of `cwd` goes before the
directory, and what is left of the directory. -/
def joinCwd (text : List WChar) (dir : Slice) (cwd : List WChar) : ℕ × Slice :=
  let c := fun i => wAt text (dir.start + i)
  if dir.len > 2 ∧ c 0 = wBackslash ∧ c 1 = wBackslash then (0, dir)
  else if dir.len ≥ 1 ∧ (c 0 = wSlash ∨ c 0 = wBackslash) then (2, dir)
  else if dir.len ≥ 2 ∧ c 1 = wColon ∧ (dir.len < 3 ∨ (c 2 ≠ wSlash ∧ c 2 ≠ wBackslash)) then
    if cwd.length < 2 ∨ sys.wcsnicmp cwd (text.drop dir.start) 2 ≠ 0 then (0, dir)
    else (cwd.length, ⟨dir.start + 2, dir.len - 2⟩)
  else if dir.len > 2 ∧ c 1 = wColon then (0, dir)
  else (cwd.length, dir)

/-- The indices that `processx__search_path_join_test()` reads in the text of the directory. -/
def joinReads (text : List WChar) (dir : Slice) (cwd : List WChar) : List ℕ :=
  let c := fun i => wAt text (dir.start + i)
  let i := dir.start
  let copied := (joinCwd sys text dir cwd).2
  let copy := List.range' copied.start (min copied.len (text.length + 1 - copied.start))
  let unc := if dir.len > 2 then i :: if c 0 = wBackslash then [i + 1] else [] else []
  if dir.len > 2 ∧ c 0 = wBackslash ∧ c 1 = wBackslash then unc ++ copy
  else
    let full := unc ++ if dir.len ≥ 1 then [i] else []
    if dir.len ≥ 1 ∧ (c 0 = wSlash ∨ c 0 = wBackslash) then full ++ copy
    else
      let drive := full ++
        if dir.len ≥ 2 then (i + 1) :: if c 1 = wColon ∧ ¬ dir.len < 3 then [i + 2] else [] else []
      if dir.len ≥ 2 ∧ c 1 = wColon ∧ (dir.len < 3 ∨ (c 2 ≠ wSlash ∧ c 2 ≠ wBackslash)) then
        drive ++ (if cwd.length < 2 then [] else [i, i + 1]) ++ copy
      else drive ++ (if dir.len > 2 then [i + 1] else []) ++ copy

/-- A path separator is added if the text does not end with one. -/
def addSeparator (n : ℕ) (result : List WChar) : List WChar :=
  if n ≠ 0 ∧ result.getLastD 0 ∉ [wBackslash, wSlash, wColon, 0] then result ++ [wBackslash]
  else result

/-- `processx__search_path_join_test()`: the file, if there is one. -/
def searchPathJoinTest (text : List WChar) (dir : Slice) (name ext cwd : List WChar) :
    Option (List WChar) :=
  let (cwdLen, dir) := joinCwd sys text dir cwd
  let result := addSeparator cwdLen (wcsncpy cwd cwdLen)
  let result := addSeparator dir.len (result ++ wcsncpy (text.drop dir.start) dir.len)
  let result := result ++ name
  let result :=
    if ext.length ≠ 0 then
      (if name.length ≠ 0 ∧ result.getLastD 0 ≠ wDot then result ++ [wDot] else result) ++ ext
    else result
  match sys.getFileAttributes (result.takeWhile (· ≠ 0)) with
  | none => none
  | some attrs => if attrs &&& 0x10 = 0 then some result else none

/-- `L"com"` and `L"exe"` -/
def extensions : List (List WChar) := [[99, 111, 109], [101, 120, 101]]

/-- `processx__path_search_walk_ext()` -/
def pathSearchWalkExt (text : List WChar) (dir : Slice) (name cwd : List WChar)
    (nameHasExt : Bool) : Option (List WChar) :=
  ((if nameHasExt then [[]] else []) ++ extensions).findSome? fun ext =>
    searchPathJoinTest sys text dir name ext cwd

/-- A quote of either kind. -/
def isQuote (c : WChar) : Bool := c = wQuote ∨ c = wApostrophe

/-- A leading quote is taken off. -/
def skipQuote (path : List WChar) (entry : Slice) : Slice :=
  if isQuote (wAt path entry.start) then ⟨entry.start + 1, sizePred entry.len⟩ else entry

/-- The index of `dir_path[dir_len - 1]`. For an empty directory the index wraps around, to the
character before it. -/
def lastIndex (dir : Slice) : ℕ :=
  if dir.len = 0 then dir.start - 1 else dir.start + (dir.len - 1)

/-- "Adjust if the path is quoted." -/
def adjustQuotes (path : List WChar) (entry : Slice) : Slice :=
  let dir := skipQuote path entry
  if isQuote (wAt path (lastIndex dir)) then ⟨dir.start, sizePred dir.len⟩ else dir

/-- An entry that is tried, and the directory that is passed for it. -/
structure Attempt where
  entry : Slice
  dir : Slice
  deriving DecidableEq

/-- What the search finds, and what it has tried. -/
abbrev Search := Option (List WChar) × List Attempt

section Search

variable (file cwd : List WChar) (nameHasExt : Bool) (path : List WChar)

/-- The directory of an entry is tried. -/
def tryEntry (entry : Slice) : Option (List WChar) :=
  pathSearchWalkExt sys path (adjustQuotes path entry) file cwd nameHasExt

/-- A round of the search loop from `dir_start` on, and the rounds that come `later`. -/
def searchRound (later : ℕ → Option Search) (dirStart : ℕ) : Option Search :=
  -- slice until the next ; or \0 is found
  let dirEnd := (wcschr path dirStart wSemicolon).getD ((wcschr path dirStart 0).getD 0)
  if dirEnd - dirStart = 0 then later dirEnd
  else
    let entry : Slice := ⟨dirStart, dirEnd - dirStart⟩
    let attempt : Attempt := ⟨entry, adjustQuotes path entry⟩
    match tryEntry sys file cwd nameHasExt path entry with
    | some result => some (some result, [attempt])
    | none => (later dirEnd).map fun (result, tried) => (result, attempt :: tried)

/-- The search loop of `processx__search_path()`, for at most some rounds. -/
def searchLoop : ℕ → ℕ → Option Search
  | 0, _ => none
  | rounds + 1, dirEnd =>
    if wAt path dirEnd = 0 then some (none, [])
    else
      searchRound sys file cwd nameHasExt path (searchLoop rounds)
        (if dirEnd ≠ 0 ∨ wAt path 0 = wSemicolon then dirEnd + 1 else dirEnd)

/-- The start of the name in a file, behind its directory. -/
def fileNameStart : ℕ :=
  file.length - (file.reverse.takeWhile (· ∉ [wBackslash, wSlash, wColon])).length

/-- `processx__search_path()` -/
def searchPath (rounds : ℕ) : Option Search :=
  if file.length = 0 ∨ file = [wDot] then some (none, [])
  else
    let start := fileNameStart file
    let nameHasExt := (wcschr file start wDot).any fun dot => wAt file (dot + 1) ≠ 0
    if start ≠ 0 then
      some (pathSearchWalkExt sys file ⟨0, start⟩ (file.drop start) cwd nameHasExt, [])
    else
      match pathSearchWalkExt sys [] ⟨0, 0⟩ file cwd nameHasExt with
      | some result => some (some result, [])
      | none => searchLoop sys file cwd nameHasExt path rounds 0

end Search

/-- Where the entries that are not empty stand, if the first one starts at `start`, and there is a
separator behind each but the last. -/
def slicesOf : ℕ → List (List WChar) → List Slice
  | _, [] => []
  | start, entry :: entries =>
    if entry = [] then slicesOf (start + 1) entries
    else ⟨start, entry.length⟩ :: slicesOf (start + entry.length + 1) entries

/-- The entries of the path that are not empty. -/
def pathEntries (path : List WChar) : List Slice := slicesOf 0 (path.splitOn wSemicolon)

/-- The first things of a list, up to the first one that is found. -/
def untilFound {α : Type} (found : α → Bool) : List α → List α
  | [] => []
  | a :: rest => a :: if found a then [] else untilFound found rest

/-- The text from one separator on. -/
def joined (entries : List (List WChar)) : List WChar := [wSemicolon].intercalate entries

/-- A single entry has no separator. -/
@[simp] theorem joined_singleton (entry : List WChar) : joined [entry] = entry := by
  simp [joined, List.intercalate]

/-- Entries are separated by semicolons. -/
@[simp] theorem joined_cons_cons (entry next : List WChar) (entries : List (List WChar)) :
    joined (entry :: next :: entries) = entry ++ wSemicolon :: joined (next :: entries) := by
  simp [joined, List.intercalate]

/-- A path is made of the entries between its semicolons. -/
theorem joined_splitOn (path : List WChar) : joined (path.splitOn wSemicolon) = path :=
  List.intercalate_splitOn wSemicolon

/-- A path is at least as long as it has separators. -/
theorem length_le_joined (entry : List WChar) (entries : List (List WChar)) :
    entries.length ≤ (joined (entry :: entries)).length := by
  induction entries generalizing entry with
  | nil => exact Nat.zero_le _
  | cons next entries ih =>
    have hrest := ih next
    rw [joined_cons_cons, List.length_append, List.length_cons, List.length_cons]
    omega

/-- The text of a slice. -/
theorem Slice.of_append (before entry behind : List WChar) :
    (⟨before.length, entry.length⟩ : Slice).of (before ++ (entry ++ behind)) = entry := by
  simp [Slice.of]

/-- The slices hold the entries. -/
theorem slicesOf_of (entries : List (List WChar)) (before : List WChar) :
    (slicesOf before.length entries).map (Slice.of (before ++ joined entries)) =
      entries.filter (· ≠ []) := by
  induction entries generalizing before with
  | nil => rfl
  | cons entry entries ih =>
    obtain ⟨behind, hjoined, hlater⟩ : ∃ behind, joined (entry :: entries) = entry ++ behind ∧
        (slicesOf (before.length + entry.length + 1) entries).map
          (Slice.of (before ++ (entry ++ behind))) = entries.filter (· ≠ []) := by
      cases entries with
      | nil => exact ⟨[], by simp, rfl⟩
      | cons next entries =>
        refine ⟨wSemicolon :: joined (next :: entries), joined_cons_cons _ _ _, ?_⟩
        have hnext := ih (before ++ entry ++ [wSemicolon])
        simpa [Nat.add_assoc] using hnext
    rw [hjoined]
    unfold slicesOf
    split_ifs with hempty
    · subst hempty
      simpa using hlater
    · rw [List.map_cons, Slice.of_append, hlater]
      simp [hempty]

/-- **The slices are the entries that are not empty.** -/
theorem pathEntries_of (path : List WChar) :
    (pathEntries path).map (Slice.of path) = (path.splitOn wSemicolon).filter (· ≠ []) := by
  have hall := slicesOf_of (path.splitOn wSemicolon) []
  rwa [List.nil_append, joined_splitOn] at hall

example : pathEntries [59, 97, 59, 59, 34, 98, 34] = [⟨1, 1⟩, ⟨4, 3⟩] := by decide

/-- The slices lie within the path, and are not empty. -/
theorem slicesOf_within {entries : List (List WChar)} {start : ℕ} {s : Slice}
    (h : s ∈ slicesOf start entries) :
    s.len ≠ 0 ∧ s.start + s.len ≤ start + (joined entries).length := by
  induction entries generalizing start with
  | nil => cases h
  | cons entry entries ih =>
    have hrest : ∀ n, start + entry.length + 1 = n → s ∈ slicesOf n entries →
        s.len ≠ 0 ∧ s.start + s.len ≤ start + (joined (entry :: entries)).length := by
      intro n hn hmem
      obtain ⟨hlen, hle⟩ := ih hmem
      refine ⟨hlen, ?_⟩
      cases entries with
      | nil => cases hmem
      | cons next entries =>
        rw [joined_cons_cons, List.length_append, List.length_cons]
        omega
    unfold slicesOf at h
    split_ifs at h with hempty
    · exact hrest _ (by rw [hempty]; rfl) h
    · rcases List.mem_cons.mp h with rfl | hmem
      · refine ⟨by simpa using hempty, ?_⟩
        cases entries with
        | nil => simp
        | cons next entries => simp
      · exact hrest _ rfl hmem

/-- What a search comes to that tries some entries in order. -/
def searchOf (walk : Slice → Option (List WChar)) (path : List WChar) : List Slice → Search
  | [] => (none, [])
  | entry :: entries =>
    match walk entry with
    | some result => (some result, [⟨entry, adjustQuotes path entry⟩])
    | none =>
      let (result, tried) := searchOf walk path entries
      (result, ⟨entry, adjustQuotes path entry⟩ :: tried)

section Loop

variable {sys} {file cwd : List WChar} {nameHasExt : Bool}

/-- The character behind a text. -/
theorem wAt_append (before behind : List WChar) : wAt (before ++ behind) before.length =
    wAt behind 0 := by
  unfold wAt
  rw [List.getD_eq_getElem?_getD, List.getElem?_append_right (Nat.le_refl _), Nat.sub_self]
  rfl

/-- Where an entry ends. -/
theorem dirEnd_eq {before entry behind : List WChar} (hentry : wSemicolon ∉ entry)
    (hnul : 0 ∉ entry ++ behind) (hbehind : behind = [] ∨ ∃ rest, behind = wSemicolon :: rest) :
    (wcschr (before ++ (entry ++ behind)) before.length wSemicolon).getD
      ((wcschr (before ++ (entry ++ behind)) before.length 0).getD 0) =
        before.length + entry.length := by
  obtain rfl | ⟨rest, rfl⟩ := hbehind
  · have hnone : (entry ++ []).idxOf wSemicolon = entry.length := by
      rw [List.append_nil]
      exact List.idxOf_eq_length hentry
    have hend : (entry ++ []).idxOf 0 = entry.length := by
      rw [List.idxOf_eq_length hnul, List.append_nil]
    unfold wcschr
    rw [List.drop_left, hnone, hend]
    simp [show wSemicolon ≠ 0 by decide]
  · have hfound : (entry ++ wSemicolon :: rest).idxOf wSemicolon = entry.length := by
      rw [List.idxOf_append_of_notMem hentry, List.idxOf_cons_self, Nat.add_zero]
    unfold wcschr
    rw [List.drop_left, hfound]
    simp

/-- From the start of an entry on, all entries are tried that are not empty. -/
theorem searchRound_eq (before : List WChar) {path entry : List WChar}
    {entries : List (List WChar)} {rounds : ℕ} (hrounds : entries.length < rounds)
    (hentries : ∀ e ∈ entry :: entries, wSemicolon ∉ e) (hnul : 0 ∉ path)
    (hpath : path = before ++ joined (entry :: entries)) :
    searchRound sys file cwd nameHasExt path (searchLoop sys file cwd nameHasExt path rounds)
        before.length =
      some (searchOf (tryEntry sys file cwd nameHasExt path) path
        (slicesOf before.length (entry :: entries))) := by
  induction entries generalizing before entry rounds with
  | nil =>
    obtain ⟨rounds, rfl⟩ := Nat.exists_eq_succ_of_ne_zero (Nat.ne_zero_of_lt hrounds)
    have hlast : path = before ++ (entry ++ []) := by simpa using hpath
    have hend : (wcschr path before.length wSemicolon).getD
        ((wcschr path before.length 0).getD 0) = before.length + entry.length := by
      rw [hlast] at hnul ⊢
      exact dirEnd_eq (hentries entry List.mem_cons_self)
        (fun hmem => hnul (List.mem_append_right _ hmem)) (Or.inl rfl)
    have hstop : searchLoop sys file cwd nameHasExt path (rounds + 1)
        (before.length + entry.length) = some (none, []) := by
      refine if_pos ?_
      rw [← List.length_append, hlast, ← List.append_assoc, wAt_append]
      rfl
    unfold searchRound
    dsimp only
    rw [hend, Nat.add_sub_cancel_left, hstop]
    unfold slicesOf
    by_cases hempty : entry = []
    · rw [if_pos hempty, if_pos (by rw [hempty]; rfl)]
      rfl
    · have hlength : entry.length ≠ 0 := fun hzero => hempty (List.length_eq_zero_iff.mp hzero)
      rw [if_neg hempty, if_neg hlength]
      unfold searchOf
      cases tryEntry sys file cwd nameHasExt path ⟨before.length, entry.length⟩ <;> rfl
  | cons next entries ih =>
    obtain ⟨rounds, rfl⟩ := Nat.exists_eq_succ_of_ne_zero (Nat.ne_zero_of_lt hrounds)
    have hmore : path = before ++ (entry ++ wSemicolon :: joined (next :: entries)) := by
      rw [hpath, joined_cons_cons]
    have hend : (wcschr path before.length wSemicolon).getD
        ((wcschr path before.length 0).getD 0) = before.length + entry.length := by
      rw [hmore] at hnul ⊢
      exact dirEnd_eq (hentries entry List.mem_cons_self)
        (fun hmem => hnul (List.mem_append_right _ hmem)) (Or.inr ⟨_, rfl⟩)
    have hsep : wAt path (before.length + entry.length) = wSemicolon := by
      rw [← List.length_append, hmore, ← List.append_assoc, wAt_append]
      rfl
    -- the loop goes on behind the separator
    have hskip : before.length + entry.length ≠ 0 ∨ wAt path 0 = wSemicolon := by
      by_cases hzero : before.length + entry.length = 0
      · rw [hzero] at hsep
        exact Or.inr hsep
      · exact Or.inl hzero
    have hnext : searchLoop sys file cwd nameHasExt path (rounds + 1)
        (before.length + entry.length) = some (searchOf (tryEntry sys file cwd nameHasExt path) path
          (slicesOf (before.length + entry.length + 1) (next :: entries))) := by
      have hrest := ih (before ++ entry ++ [wSemicolon])
        (Nat.lt_of_succ_lt_succ hrounds) (fun e he => hentries e (List.mem_cons_of_mem _ he))
        (by rw [hmore]; simp)
      have hbefore : (before ++ entry ++ [wSemicolon]).length =
          before.length + entry.length + 1 := by simp [Nat.add_assoc]
      rw [hbefore] at hrest
      unfold searchLoop
      rw [hsep, if_neg (by decide), if_pos hskip]
      exact hrest
    unfold searchRound
    dsimp only
    rw [hend, Nat.add_sub_cancel_left, hnext]
    conv_rhs => unfold slicesOf
    by_cases hempty : entry = []
    · rw [if_pos hempty, if_pos (by rw [hempty]; rfl), hempty]
      rfl
    · have hlength : entry.length ≠ 0 := fun hzero => hempty (List.length_eq_zero_iff.mp hzero)
      rw [if_neg hempty, if_neg hlength]
      conv_rhs => unfold searchOf
      cases tryEntry sys file cwd nameHasExt path ⟨before.length, entry.length⟩ <;> rfl

/-- **The search loop ends**, and tries the entries that are not empty until one succeeds. -/
theorem searchLoop_eq {path : List WChar} {rounds : ℕ} (hnul : 0 ∉ path)
    (hrounds : path.length + 2 ≤ rounds) :
    searchLoop sys file cwd nameHasExt path rounds 0 =
      some (searchOf (tryEntry sys file cwd nameHasExt path) path (pathEntries path)) := by
  obtain ⟨rounds, rfl⟩ := Nat.exists_eq_succ_of_ne_zero (by omega : rounds ≠ 0)
  rcases hpath : path with _ | ⟨c, rest⟩
  · rfl
  have hc : c ≠ 0 := fun hzero => hnul (by rw [hpath, hzero]; exact List.mem_cons_self)
  have hfirst : wAt (c :: rest) 0 = c := rfl
  unfold searchLoop
  rw [hfirst, if_neg hc]
  rw [hpath] at hnul hrounds
  rcases hsplit : (c :: rest).splitOn wSemicolon with _ | ⟨entry, entries⟩
  · exact absurd hsplit (List.splitOn_ne_nil _ _)
  have hjoined : c :: rest = joined (entry :: entries) := by rw [← hsplit, joined_splitOn]
  have hentries : ∀ e ∈ entry :: entries, wSemicolon ∉ e := fun e he =>
    Components.not_mem_of_mem_splitOn (hsplit ▸ he)
  have hlength := length_le_joined entry entries
  rw [← hjoined] at hlength
  unfold pathEntries
  rw [hsplit]
  by_cases hsep : c = wSemicolon
  · -- the first entry is empty, and the loop starts behind it
    rw [List.splitOn_cons_eq_if_modifyHead, if_pos (by simpa using hsep)] at hsplit
    obtain ⟨rfl, rfl⟩ := List.cons.inj hsplit
    rcases hrest : rest.splitOn wSemicolon with _ | ⟨next, entries⟩
    · exact absurd hrest (List.splitOn_ne_nil _ _)
    rw [hrest] at hentries hlength
    have hpath' : c :: rest = [wSemicolon] ++ joined (next :: entries) := by
      rw [← hrest, joined_splitOn, hsep]
      rfl
    rw [if_pos (Or.inr hsep)]
    unfold slicesOf
    rw [if_pos rfl]
    exact searchRound_eq [wSemicolon] (by simp at hlength hrounds; omega)
      (fun e he => hentries e (List.mem_cons_of_mem _ he)) hnul hpath'
  · have hstart : ¬ ((0 : ℕ) ≠ 0 ∨ c = wSemicolon) := by simpa using hsep
    rw [if_neg hstart]
    exact searchRound_eq [] (by simp at hlength hrounds; omega) hentries hnul hjoined

end Loop

/-- A text without one leading quote. -/
def stripLeading (text : List WChar) : List WChar :=
  if isQuote (text.headD 0) then text.tail else text

/-- A text without one trailing quote. -/
def stripTrailing (text : List WChar) : List WChar :=
  if isQuote (text.getLastD 0) then text.dropLast else text

/-- A text without at most one leading and one trailing quote. -/
def stripQuotes (text : List WChar) : List WChar := stripTrailing (stripLeading text)

/-- The indices of the path that are read for an attempt. -/
def Attempt.reads (path cwd : List WChar) (a : Attempt) : List ℕ :=
  [a.entry.start, lastIndex (skipQuote path a.entry)] ++ joinReads sys path a.dir cwd

/-- The directory of an attempt is the entry without its quotes, and nothing is read outside. -/
structure Attempt.Passed (path cwd : List WChar) (a : Attempt) : Prop where
  dir : a.dir.of path = stripQuotes (a.entry.of path)
  dirLen : a.dir.len ≤ a.entry.len
  inside : ∀ i ∈ a.reads sys path cwd, a.entry.start ≤ i ∧ i < a.entry.start + a.entry.len

section Passed

variable {sys} {path cwd : List WChar}

/-- Joining with the working directory takes the separator off the slice at most. -/
theorem joinCwd_within (sys : Files) (cwd text : List WChar) (dir : Slice) :
    dir.start ≤ (joinCwd sys text dir cwd).2.start ∧
      (joinCwd sys text dir cwd).2.start + (joinCwd sys text dir cwd).2.len =
        dir.start + dir.len := by
  unfold joinCwd
  dsimp only
  split_ifs with _ _ hdrive
  all_goals first | exact ⟨Nat.le_refl _, rfl⟩ | skip
  dsimp only
  omega

/-- Joining reads nothing outside of the directory. -/
theorem joinReads_within {text : List WChar} {dir : Slice} {i : ℕ}
    (h : i ∈ joinReads sys text dir cwd) : dir.start ≤ i ∧ i < dir.start + dir.len := by
  obtain ⟨hstart, hend⟩ := joinCwd_within sys cwd text dir
  have hcopy : i ∈ List.range' (joinCwd sys text dir cwd).2.start
      (min (joinCwd sys text dir cwd).2.len
        (text.length + 1 - (joinCwd sys text dir cwd).2.start)) →
      dir.start ≤ i ∧ i < dir.start + dir.len := by
    rw [List.mem_range'_1]
    omega
  by_cases hmem : i ∈ List.range' (joinCwd sys text dir cwd).2.start
      (min (joinCwd sys text dir cwd).2.len (text.length + 1 - (joinCwd sys text dir cwd).2.start))
  · exact hcopy hmem
  · -- the other indices are read behind a check of the length
    unfold joinReads at h
    dsimp only at h
    split_ifs at h <;> simp [hmem] at h <;> omega

/-- A slice without its first character. -/
theorem Slice.of_tail (s : Slice) :
    (⟨s.start + 1, s.len - 1⟩ : Slice).of path = (s.of path).tail := by
  rw [← List.drop_one, Slice.of, Slice.of, List.drop_take, List.drop_drop]

/-- A slice without its last character. -/
theorem Slice.of_dropLast {s : Slice} (h : s.start + s.len ≤ path.length) :
    (⟨s.start, s.len - 1⟩ : Slice).of path = (s.of path).dropLast := by
  have hlength : (s.of path).length = s.len := by
    simp [Slice.of]
    omega
  rw [List.dropLast_eq_take, hlength]
  simp [Slice.of, List.take_take]

/-- The first character of a slice. -/
theorem Slice.headD_of {s : Slice} (h : s.len ≠ 0) :
    (s.of path).headD 0 = wAt path s.start := by
  simp [Slice.of, wAt, List.headD_eq_head?_getD, List.head?_take, h, List.head?_drop]

/-- The last character of a slice. -/
theorem Slice.getLastD_of {s : Slice} (hlen : s.len ≠ 0) (h : s.start + s.len ≤ path.length) :
    (s.of path).getLastD 0 = wAt path (s.start + (s.len - 1)) := by
  have hlength : (s.of path).length = s.len := by
    simp [Slice.of]
    omega
  have hlt : s.len - 1 < s.len := by omega
  rw [List.getLastD_eq_getLast?, List.getLast?_eq_getElem?, hlength]
  simp [Slice.of, wAt, hlt]

/-- The leading quote of an entry that is not a quote alone. -/
theorem skipQuote_spec {s : Slice} (hlen : s.len ≠ 0)
    (halone : ¬ (s.len = 1 ∧ isQuote (wAt path s.start) = true)) :
    (skipQuote path s).of path = stripLeading (s.of path) ∧ (skipQuote path s).len ≠ 0 ∧
      s.start ≤ (skipQuote path s).start ∧
      (skipQuote path s).start + (skipQuote path s).len = s.start + s.len := by
  unfold skipQuote stripLeading
  rw [Slice.headD_of hlen]
  split_ifs with hquote
  · have hmore : s.len ≠ 1 := fun hone => halone ⟨hone, hquote⟩
    have hpred : sizePred s.len = s.len - 1 := if_neg hlen
    rw [hpred]
    refine ⟨s.of_tail, ?_, ?_, ?_⟩ <;> dsimp only <;> omega
  · exact ⟨rfl, hlen, Nat.le_refl _, rfl⟩

/-- The trailing quote of a directory. -/
theorem adjustQuotes_spec {s : Slice} (hlen : s.len ≠ 0) (hwithin : s.start + s.len ≤ path.length)
    (halone : ¬ (s.len = 1 ∧ isQuote (wAt path s.start) = true)) :
    (adjustQuotes path s).of path = stripQuotes (s.of path) ∧
      s.start ≤ (adjustQuotes path s).start ∧
      (adjustQuotes path s).start + (adjustQuotes path s).len ≤ s.start + s.len := by
  obtain ⟨hof, hsome, hstart, hend⟩ := skipQuote_spec hlen halone
  unfold adjustQuotes stripQuotes stripTrailing
  dsimp only
  rw [← hof, Slice.getLastD_of hsome (hend ▸ hwithin)]
  have hindex : lastIndex (skipQuote path s) =
      (skipQuote path s).start + ((skipQuote path s).len - 1) := if_neg hsome
  rw [hindex]
  split_ifs with hquote
  · have hpred : sizePred (skipQuote path s).len = (skipQuote path s).len - 1 := if_neg hsome
    rw [hpred]
    refine ⟨Slice.of_dropLast (hend ▸ hwithin), hstart, ?_⟩
    dsimp only
    omega
  · exact ⟨rfl, hstart, Nat.le_of_eq hend⟩

/-- **An entry is passed as it should be** exactly if it is not a quote alone. -/
theorem adjustQuotes_passed_iff {s : Slice} (hlen : s.len ≠ 0)
    (hwithin : s.start + s.len ≤ path.length) :
    (⟨s, adjustQuotes path s⟩ : Attempt).Passed sys path cwd ↔
      s.of path ≠ [wQuote] ∧ s.of path ≠ [wApostrophe] := by
  have hlength : (s.of path).length = s.len := by
    simp [Slice.of]
    omega
  have halone : (s.of path ≠ [wQuote] ∧ s.of path ≠ [wApostrophe]) ↔
      ¬ (s.len = 1 ∧ isQuote (wAt path s.start) = true) := by
    rw [← Slice.headD_of hlen, ← hlength, ← not_or]
    refine not_congr ?_
    unfold isQuote
    rw [decide_eq_true_iff]
    rcases s.of path with _ | ⟨c, _ | ⟨d, rest⟩⟩ <;> simp
  rw [halone]
  constructor
  · rintro h ⟨hone, hquote⟩
    -- the length is counted below zero
    have hskip : skipQuote path s = ⟨s.start + 1, 0⟩ := by
      unfold skipQuote
      rw [if_pos hquote, hone]
      rfl
    have hadjust : adjustQuotes path s = ⟨s.start + 1, sizeMax⟩ := by
      have hlast : lastIndex ⟨s.start + 1, 0⟩ = s.start := rfl
      unfold adjustQuotes
      dsimp only
      rw [hskip, hlast, if_pos hquote]
      rfl
    have hle := h.dirLen
    dsimp only at hle
    rw [hadjust, hone] at hle
    have hlt : ¬ sizeMax ≤ 1 := by decide
    exact absurd hle hlt
  · intro hmore
    obtain ⟨hof, hstart, hend⟩ := adjustQuotes_spec hlen hwithin hmore
    obtain ⟨_, hsome, hskipped, hskipEnd⟩ := skipQuote_spec hlen hmore
    refine ⟨hof, by dsimp only; omega, fun i hi => ?_⟩
    rcases List.mem_append.mp hi with hquotes | hjoin
    · have hindex : lastIndex (skipQuote path s) =
          (skipQuote path s).start + ((skipQuote path s).len - 1) := if_neg hsome
      dsimp only at hquotes ⊢
      rw [hindex] at hquotes
      rcases List.mem_cons.mp hquotes with rfl | hlast
      · omega
      · obtain rfl := List.mem_singleton.mp hlast
        omega
    · have hinside := joinReads_within hjoin
      dsimp only at hinside ⊢
      omega

end Passed

/-- What is expected of a search: the entries that are not empty are tried in order until one
succeeds, and each of them is passed as it should be. -/
structure ScansPath (file cwd : List WChar) (nameHasExt : Bool) (path : List WChar)
    (search : Search) : Prop where
  inOrder : search.2.map (fun a => a.entry.of path) <+:
    (path.splitOn wSemicolon).filter (· ≠ [])
  failed : ∀ a ∈ search.2.dropLast,
    pathSearchWalkExt sys path a.dir file cwd nameHasExt = none
  found : ∀ result, search.1 = some result → ∃ a, search.2.getLast? = some a ∧
    pathSearchWalkExt sys path a.dir file cwd nameHasExt = some result
  nothing : search.1 = none → search.2.map (fun a => a.entry.of path) =
      (path.splitOn wSemicolon).filter (· ≠ []) ∧
    ∀ a ∈ search.2, pathSearchWalkExt sys path a.dir file cwd nameHasExt = none
  passed : ∀ a ∈ search.2, a.Passed sys path cwd

/-- The entries that the search comes to: each of those before was tried without success. -/
def reachedEntries (file cwd : List WChar) (nameHasExt : Bool) (path : List WChar) : List Slice :=
  untilFound (fun entry => (tryEntry sys file cwd nameHasExt path entry).isSome)
    (pathEntries path)

/-- The search tries the entries up to the first where the file is found. -/
theorem searchOf_tried (walk : Slice → Option (List WChar)) (path : List WChar)
    (entries : List Slice) : (searchOf walk path entries).2 =
      (untilFound (fun entry => (walk entry).isSome) entries).map
        fun entry => ⟨entry, adjustQuotes path entry⟩ := by
  induction entries with
  | nil => rfl
  | cons entry entries ih =>
    unfold searchOf untilFound
    cases hwalk : walk entry with
    | some result => rfl
    | none => simp [ih]

/-- What is tried is the front of the list. -/
theorem untilFound_initial {α : Type} (found : α → Bool) (l : List α) :
    untilFound found l <+: l := by
  induction l with
  | nil => exact List.prefix_refl _
  | cons a l ih =>
    unfold untilFound
    split_ifs
    · exact ⟨l, rfl⟩
    · exact List.cons_prefix_cons.mpr ⟨rfl, ih⟩

/-- Each entry but the last one is tried without success, and the result is that of the last one. -/
theorem searchOf_search (walk : Slice → Option (List WChar)) (path : List WChar)
    (entries : List Slice) :
    (∀ a ∈ (searchOf walk path entries).2.dropLast, walk a.entry = none) ∧
      (∀ result, (searchOf walk path entries).1 = some result → ∃ a,
        (searchOf walk path entries).2.getLast? = some a ∧ walk a.entry = some result) ∧
      ((searchOf walk path entries).1 = none →
        (searchOf walk path entries).2.map Attempt.entry = entries ∧
          ∀ a ∈ (searchOf walk path entries).2, walk a.entry = none) := by
  induction entries with
  | nil =>
    refine ⟨List.forall_mem_nil _, fun result hresult => ?_, fun _ => ⟨rfl, List.forall_mem_nil _⟩⟩
    cases hresult
  | cons entry entries ih =>
    unfold searchOf
    cases hwalk : walk entry with
    | some found =>
      refine ⟨List.forall_mem_nil _, fun result hresult => ⟨_, rfl, ?_⟩, fun hnone => ?_⟩
      · exact hwalk.trans hresult
      · cases hnone
    | none =>
      dsimp only
      obtain ⟨hfailed, hfound, hnothing⟩ := ih
      generalize searchOf walk path entries = search at hfailed hfound hnothing ⊢
      obtain ⟨result, tried⟩ := search
      dsimp only at hfailed hfound hnothing ⊢
      refine ⟨?_, fun found hresult => ?_, fun hnone => ?_⟩
      · rcases tried with _ | ⟨b, tried⟩
        · exact List.forall_mem_nil _
        · rw [List.dropLast_cons_cons]
          exact List.forall_mem_cons.mpr ⟨hwalk, hfailed⟩
      · obtain ⟨a, hlast, ha⟩ := hfound found hresult
        refine ⟨a, ?_, ha⟩
        rw [List.getLast?_cons, hlast]
        rfl
      · obtain ⟨hall, hnone'⟩ := hnothing hnone
        exact ⟨by rw [List.map_cons, hall], List.forall_mem_cons.mpr ⟨hwalk, hnone'⟩⟩

/-- **The search loop ends, and scans the path** as expected, exactly if none of the entries that it
comes to is a quote alone. -/
theorem searchLoop_scans_iff (file cwd : List WChar) (nameHasExt : Bool) (path : WString) :
    ∃ search, (∀ rounds, path.val.length + 2 ≤ rounds →
        searchLoop sys file cwd nameHasExt path.val rounds 0 = some search) ∧
      (ScansPath sys file cwd nameHasExt path.val search ↔
        ∀ entry ∈ reachedEntries sys file cwd nameHasExt path.val,
          entry.of path.val ≠ [wQuote] ∧ entry.of path.val ≠ [wApostrophe]) := by
  obtain ⟨path, hnul⟩ := path
  dsimp only
  refine ⟨_, fun rounds hrounds => searchLoop_eq hnul hrounds, ?_⟩
  have htried := searchOf_tried (tryEntry sys file cwd nameHasExt path) path (pathEntries path)
  obtain ⟨hfailed, hfound, hnothing⟩ :=
    searchOf_search (tryEntry sys file cwd nameHasExt path) path (pathEntries path)
  have hdir : ∀ a ∈ (searchOf (tryEntry sys file cwd nameHasExt path) path (pathEntries path)).2,
      pathSearchWalkExt sys path a.dir file cwd nameHasExt =
        tryEntry sys file cwd nameHasExt path a.entry := by
    rw [htried]
    intro a ha
    obtain ⟨entry, _, rfl⟩ := List.mem_map.mp ha
    rfl
  have hpassed : (∀ a ∈ (searchOf (tryEntry sys file cwd nameHasExt path) path
        (pathEntries path)).2, a.Passed sys path cwd) ↔
      ∀ entry ∈ reachedEntries sys file cwd nameHasExt path,
        entry.of path ≠ [wQuote] ∧ entry.of path ≠ [wApostrophe] := by
    rw [htried, List.forall_mem_map]
    refine forall₂_congr fun entry hentry => ?_
    have hmem := (untilFound_initial _ _).subset hentry
    obtain ⟨hlen, hwithin⟩ := slicesOf_within hmem
    rw [joined_splitOn, Nat.zero_add] at hwithin
    exact adjustQuotes_passed_iff hlen hwithin
  rw [← hpassed]
  constructor
  · exact fun h => h.passed
  · intro h
    generalize searchOf (tryEntry sys file cwd nameHasExt path) path (pathEntries path) = search
      at hfailed hfound hnothing hdir htried h
    refine ⟨?_, fun a ha => ?_, fun result hresult => ?_, fun hnone => ?_, h⟩
    · rw [htried, List.map_map, ← pathEntries_of]
      exact (untilFound_initial _ _).map _
    · exact (hdir a (List.dropLast_subset _ ha)).trans (hfailed a ha)
    · obtain ⟨a, hlast, ha⟩ := hfound result hresult
      exact ⟨a, hlast, (hdir a (List.mem_of_getLast? hlast)).trans ha⟩
    · obtain ⟨hall, hnone'⟩ := hnothing hnone
      refine ⟨?_, fun a ha => (hdir a ha).trans (hnone' a ha)⟩
      rw [← pathEntries_of, ← hall, List.map_map]
      rfl

/-- `processx__search_path()` returns. -/
theorem searchPath_returns (file cwd : List WChar) (path : WString) {rounds : ℕ}
    (hrounds : path.val.length + 2 ≤ rounds) :
    (searchPath sys file cwd path.val rounds).isSome = true := by
  unfold searchPath
  dsimp only
  split_ifs
  · rfl
  · rfl
  · split
    · rfl
    · rw [searchLoop_eq path.property hrounds]
      rfl

/-- The path is a quote. -/
theorem searchLoop_alone :
    let sys : Files := { getFileAttributes := fun _ => none, wcsnicmp := fun _ _ _ => 0 }
    ∃ search, searchLoop sys [97] [] false [wQuote] 3 0 = some search ∧
      search.2 = [⟨⟨0, 1⟩, ⟨1, sizeMax⟩⟩] ∧ ¬ ScansPath sys [97] [] false [wQuote] search := by
  intro sys
  refine ⟨(none, [⟨⟨0, 1⟩, ⟨1, sizeMax⟩⟩]), by decide +kernel, rfl, fun h => ?_⟩
  have hle := (h.passed ⟨⟨0, 1⟩, ⟨1, sizeMax⟩⟩ List.mem_cons_self).dirLen
  have hlt : ¬ sizeMax ≤ 1 := by decide
  exact hlt hle

end Processx
