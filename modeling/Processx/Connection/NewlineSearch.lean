import Processx.Connection.Subtractions

/-!
# The search for a line feed

`processx__connection_read_until_newline()` sets `end` once, in front of its loop, and a
reallocation moves it along with the buffer. The loop therefore never looks at what its own reads
bring: if the text it starts from has no line feed then it reads on until there is nothing more,
and returns -1. This is right exactly if no line feed came with these reads.
-/

namespace Processx

open Incremental

variable {σ : Type} {ic : Riconv σ}

/-- The place of the first line feed of a text, `none` if it has none. -/
def FirstLineFeed (utf8 : Bytes) : Option ℕ → Prop
  | some k => utf8[k]? = some lineFeed ∧ lineFeed ∉ utf8.take k
  | none => lineFeed ∉ utf8

instance (utf8 : Bytes) : DecidablePred (FirstLineFeed utf8)
  | some k => inferInstanceAs (Decidable (utf8[k]? = some lineFeed ∧ lineFeed ∉ utf8.take k))
  | none => inferInstanceAs (Decidable (lineFeed ∉ utf8))

/-- The texts that reading on brings, one for each read: up to the end of the file, an error or a
read that brings nothing. -/
def textsRead (ic : Riconv σ) : ℕ → Connection σ → Os → List Bytes
  | 0, _, _ => []
  | rounds + 1, ccon, os =>
    if ccon.isEof then []
    else
      let grown := if ccon.utf8.length ≥ ccon.utf8AllocatedSize - 8 then connectionRealloc ccon
        else ccon
      match connectionRead ic grown os with
      | (.error _, _, _) => []
      | (.ok newBytes, ccon', os') =>
        ccon'.utf8.drop ccon.utf8.length ::
          if newBytes = 0 then [] else textsRead ic rounds ccon' os'

/-- The text that the search starts from has a line feed, or reading on brings none. The search
starts from nothing if the first read brings nothing. -/
def NoLateLineFeed (ic : Riconv σ) (rounds : ℕ) (ccon : Connection σ) (os : Os) : Prop :=
  match if ccon.utf8.length = 0 then connectionRead ic ccon os else (.ok 0, ccon, os) with
  | (.error _, _, _) => True
  | (.ok _, ccon, os) =>
    ccon.utf8.length ≠ 0 →
      lineFeed ∈ ccon.utf8 ∨ ∀ text ∈ textsRead ic rounds ccon os, lineFeed ∉ text

/-- What `processx__find_newline()` finds from the start of a text. -/
theorem firstLineFeed_findNewline (utf8 : Bytes) : FirstLineFeed utf8 (findNewline utf8 0) := by
  cases hfound : findNewline utf8 0 with
  | none =>
    have hnone := notMem_of_findNewline hfound
    rwa [List.drop_zero] at hnone
  | some k =>
    obtain ⟨piece, hsplit, hpiece, hk⟩ := drop_eq_of_findNewline hfound
    refine ⟨getElem?_of_findNewline hfound, ?_⟩
    rw [List.drop_zero] at hsplit
    rwa [hsplit, hk, Nat.zero_add, List.take_left]

/-- A loop that scans behind the end keeps all the text that its reads bring. -/
theorem untilNewlineLoop_texts (hic : ic.Bounded) (rounds end_ : ℕ) {ccon ccon' : Connection σ}
    (h : Represented ccon) {os os' : Os} {newline : Option ℕ}
    (heq : untilNewlineLoop ic rounds ccon os end_ end_ = (some (.ok newline), ccon', os')) :
    ccon'.utf8 = ccon.utf8 ++ (textsRead ic rounds ccon os).flatten := by
  induction rounds generalizing ccon os with
  | zero => cases heq
  | succ rounds ih =>
    have hbehind : (ccon.utf8.take end_).drop end_ = [] :=
      List.drop_eq_nil_of_le (List.length_take_le _ _)
    rw [untilNewlineLoop, hbehind] at heq
    simp only [List.idxOf?_nil, Option.map_none, Option.getD_none, lt_irrefl, if_false] at heq
    rw [textsRead]
    by_cases heof : ccon.isEof = true
    · rw [if_pos heof] at heq ⊢
      cases heq
      exact (List.append_nil _).symm
    rw [if_neg heof] at heq ⊢
    have hgrow := h.grow
    have hsame := grow_utf8 ccon
    dsimp only
    generalize (if ccon.utf8.length ≥ ccon.utf8AllocatedSize - 8 then connectionRealloc ccon
      else ccon) = grown at hgrow hsame heq ⊢
    have hread := hgrow.read hic os
    have hextends := hgrow.read_extends hic os
    generalize connectionRead ic grown os = answer at hread hextends heq ⊢
    obtain ⟨msg | newBytes, ccon₁, os₁⟩ := answer
    · cases heq
    · dsimp only at hread hextends heq ⊢
      obtain ⟨text, htext⟩ := hextends
      rw [hsame] at htext
      have hdrop : ccon₁.utf8.drop ccon.utf8.length = text := by rw [← htext, List.drop_left]
      rw [hdrop]
      by_cases hnothing : newBytes = 0
      · rw [if_pos hnothing] at heq ⊢
        cases heq
        rw [← htext, List.flatten_singleton]
      · rw [if_neg hnothing] at heq ⊢
        rw [ih hread heq, ← htext, List.flatten_cons, List.append_assoc]

/-- A loop from the start of a text finds the line feed in it, or it passes the end, and then only
the texts that it reads matter. -/
theorem untilNewlineLoop_firstLineFeed_iff (hic : ic.Bounded) {rounds : ℕ}
    {ccon ccon' : Connection σ} (h : Represented ccon) {os os' : Os} {newline : Option ℕ}
    (heq : untilNewlineLoop ic rounds ccon os 0 ccon.utf8.length =
      (some (.ok newline), ccon', os')) :
    FirstLineFeed ccon'.utf8 newline ↔
      lineFeed ∈ ccon.utf8 ∨ ∀ text ∈ textsRead ic rounds ccon os, lineFeed ∉ text := by
  cases rounds with
  | zero => cases heq
  | succ rounds =>
    have hfirst := firstLineFeed_findNewline ccon.utf8
    cases hfound : findNewline ccon.utf8 0 with
    | some k =>
      have hmem := List.mem_of_getElem? (getElem?_of_findNewline hfound)
      rw [hfound] at hfirst
      rw [untilNewlineLoop_found ic rounds os hfound] at heq
      cases heq
      exact iff_of_true hfirst (.inl hmem)
    | none =>
      rw [untilNewlineLoop_skip ic rounds os hfound] at heq
      have htexts := untilNewlineLoop_texts hic _ _ h heq
      have hbefore : lineFeed ∉ ccon.utf8 := by rwa [hfound] at hfirst
      obtain rfl := untilNewlineLoop_passed ic _ _ _ _ (congrArg Prod.fst heq)
      rw [FirstLineFeed, htexts, List.mem_append, List.mem_flatten, not_or,
        and_iff_right hbefore, or_iff_right hbefore]
      constructor
      · intro hnone text htext hlate
        exact hnone ⟨text, htext, hlate⟩
      · rintro hnone ⟨text, htext, hlate⟩
        exact hnone text htext hlate

/-- **The search for a line feed.** In every reachable state of a connection, a search that returns
has found the first line feed of the UTF-8 buffer, or that it has none, exactly if the text it
started from had a line feed or its later reads brought none. -/
theorem readUntilNewline_firstLineFeed_iff (hic : ic.Bounded) (osHandle : ℤ) (encoding : String)
    (os : Os) (calls : List (ℕ × BufferOp)) (rounds : ℕ) (newline : Option ℕ)
    (ccon' : Connection σ) (os' : Os)
    (heq : readUntilNewline ic rounds (bufferRun ic osHandle encoding os calls).ccon
      (bufferRun ic osHandle encoding os calls).os = (some (.ok newline), ccon', os')) :
    FirstLineFeed ccon'.utf8 newline ↔
      NoLateLineFeed ic rounds (bufferRun ic osHandle encoding os calls).ccon
        (bufferRun ic osHandle encoding os calls).os := by
  have h := bufferRun_represented hic osHandle encoding os calls
  generalize (bufferRun ic osHandle encoding os calls).ccon = ccon at h heq ⊢
  generalize (bufferRun ic osHandle encoding os calls).os = os at heq ⊢
  have hstart := h.readIf hic os (ccon.utf8.length = 0)
  unfold readUntilNewline at heq
  unfold NoLateLineFeed
  generalize (if ccon.utf8.length = 0 then connectionRead ic ccon os else (.ok 0, ccon, os)) =
    answer at hstart heq ⊢
  obtain ⟨msg | n, ccon₁, os₁⟩ := answer
  · cases heq
  dsimp only at hstart heq ⊢
  by_cases hempty : ccon₁.utf8.length = 0
  · -- nothing to search in
    rw [if_pos hempty] at heq
    cases heq
    refine iff_of_true ?_ fun hne => absurd hempty hne
    rw [List.length_eq_zero_iff.mp hempty]
    exact List.not_mem_nil
  · rw [if_neg hempty] at heq
    rw [untilNewlineLoop_firstLineFeed_iff hic hstart heq]
    exact ⟨fun h _ => h, fun h => h hempty⟩

/-- A line that is there at once. -/
theorem readUntilNewline_firstLineFeed_iff_line :
    let run := bufferRun utf8Riconv 3 "" ⟨[.data [0x61, 0x0a]], false⟩ []
    FirstLineFeed (readUntilNewline utf8Riconv 1 run.ccon run.os).2.1.utf8 (some 1) ↔
      NoLateLineFeed utf8Riconv 1 run.ccon run.os :=
  readUntilNewline_firstLineFeed_iff utf8Riconv_follows.bounded 3 "" _ [] 1 (some 1) _
    ⟨[], false⟩ (by decide)

/-- A line that comes in two parts, the second of them while the search is reading. -/
theorem readUntilNewline_late :
    let os : Os := ⟨[.data [0x61], .data [0x62, 0x0a]], false⟩
    let answer := readUntilNewline utf8Riconv 2 (bufferRun utf8Riconv 3 "" os []).ccon os
    answer.1 = some (.ok none) ∧ answer.2.1.utf8 = [0x61, 0x62, 0x0a] ∧
      ¬FirstLineFeed answer.2.1.utf8 none := by
  decide

end Processx
