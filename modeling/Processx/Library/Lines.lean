import Mathlib.Data.List.Basic
import Mathlib.Data.List.DropRight
import Mathlib.Tactic.Common

/-!
# The lines of a text

A text is cut at every separator. A piece that a separator ends loses one trailing
carriage return, and what stands behind the last separator is a line of its own
unless it is empty. The alphabet and both control symbols are arbitrary.
-/

namespace Textual

variable {α : Type} [DecidableEq α] {lf cr : α}

/-- A terminated piece without its trailing carriage return. -/
def chomp (cr : α) (piece : List α) : List α :=
  if piece.getLast? = some cr then piece.dropLast else piece

/-- The lines of `acc ++ text`, where `acc` holds the piece read so far. -/
def linesFrom (lf cr : α) (acc : List α) : List α → List (List α)
  | [] => if acc = [] then [] else [acc]
  | x :: text =>
    if x = lf then chomp cr acc :: linesFrom lf cr [] text
    else linesFrom lf cr (acc ++ [x]) text

/-- The lines of a text. -/
def lines (lf cr : α) (text : List α) : List (List α) := linesFrom lf cr [] text

/-- Without a separator the whole text is one unterminated piece. -/
theorem linesFrom_of_notMem {acc text : List α} (h : lf ∉ text) :
    linesFrom lf cr acc text = if acc ++ text = [] then [] else [acc ++ text] := by
  induction text generalizing acc with
  | nil => simp [linesFrom]
  | cons x text ih =>
    rw [List.mem_cons, not_or] at h
    rw [linesFrom, if_neg (Ne.symm h.1), ih h.2]
    simp

/-- The first separator ends the first line. -/
theorem linesFrom_append_cons (acc : List α) {piece text : List α} (h : lf ∉ piece) :
    linesFrom lf cr acc (piece ++ lf :: text) = chomp cr (acc ++ piece) :: lines lf cr text := by
  induction piece generalizing acc with
  | nil => simp [linesFrom, lines]
  | cons x piece ih =>
    rw [List.mem_cons, not_or] at h
    rw [List.cons_append, linesFrom, if_neg (Ne.symm h.1), ih _ h.2]
    simp

/-- The empty text has no line. -/
@[simp] theorem lines_nil : lines lf cr ([] : List α) = [] := rfl

/-- A non-empty text without a separator is its own only line. -/
theorem lines_of_notMem {text : List α} (h : lf ∉ text) (hne : text ≠ []) :
    lines lf cr text = [text] := by
  simp [lines, linesFrom_of_notMem h, hne]

/-- The first line of a text with a separator, and the lines behind it. -/
theorem lines_append_cons {piece text : List α} (h : lf ∉ piece) :
    lines lf cr (piece ++ lf :: text) = chomp cr piece :: lines lf cr text := by
  simpa [lines] using linesFrom_append_cons [] h

/-- The lines that separators end do not depend on what follows. -/
theorem take_lines_append {k : ℕ} {text : List α} (h : k ≤ text.count lf) (rest : List α) :
    (lines lf cr (text ++ rest)).take k = (lines lf cr text).take k := by
  induction k generalizing text with
  | zero => rfl
  | succ k ih =>
    have hmem : lf ∈ text := List.count_pos_iff.mp (by omega)
    obtain ⟨piece, behind, rfl, hpiece⟩ := List.eq_append_cons_of_mem hmem
    have hcount : k ≤ behind.count lf := by
      rw [List.count_append, List.count_cons_self, List.count_eq_zero_of_not_mem hpiece] at h
      omega
    rw [List.append_assoc, List.cons_append, lines_append_cons hpiece, lines_append_cons hpiece,
      List.take_succ_cons, List.take_succ_cons, ih hcount]

/-- Dropping a carriage return introduces no symbol. -/
theorem mem_of_mem_chomp {x : α} {piece : List α} (h : x ∈ chomp cr piece) : x ∈ piece := by
  unfold chomp at h
  split at h
  · exact (List.dropLast_sublist piece).subset h
  · exact h

/-- No line contains the separator. -/
theorem separator_notMem_of_mem_lines {text line : List α} (h : line ∈ lines lf cr text) :
    lf ∉ line := by
  suffices hfrom : ∀ acc : List α, lf ∉ acc → ∀ line ∈ linesFrom lf cr acc text, lf ∉ line from
    hfrom [] (by simp) line h
  clear h line
  induction text with
  | nil =>
    intro acc hacc line hline
    by_cases hnil : acc = []
    · simp [linesFrom, hnil] at hline
    · have heq : line = acc := by simpa [linesFrom, hnil] using hline
      rwa [heq]
  | cons x text ih =>
    intro acc hacc line hline
    rw [linesFrom] at hline
    by_cases hx : x = lf
    · rw [if_pos hx, List.mem_cons] at hline
      rcases hline with heq | hline
      · rw [heq]
        exact fun hmem => hacc (mem_of_mem_chomp hmem)
      · exact ih [] (by simp) line hline
    · rw [if_neg hx] at hline
      refine ih (acc ++ [x]) ?_ line hline
      simp [hacc, Ne.symm hx]

/-- No line is longer than the text. -/
theorem length_le_of_mem_lines {text line : List α} (h : line ∈ lines lf cr text) :
    line.length ≤ text.length := by
  suffices hfrom : ∀ acc : List α, ∀ line ∈ linesFrom lf cr acc text,
      line.length ≤ acc.length + text.length by
    simpa using hfrom [] line h
  clear h line
  induction text with
  | nil =>
    intro acc line hline
    by_cases hnil : acc = []
    · simp [linesFrom, hnil] at hline
    · have heq : line = acc := by simpa [linesFrom, hnil] using hline
      rw [heq]
      exact Nat.le_add_right _ _
  | cons x text ih =>
    intro acc line hline
    rw [linesFrom] at hline
    by_cases hx : x = lf
    · rw [if_pos hx, List.mem_cons] at hline
      rcases hline with heq | hline
      · have hle : (chomp cr acc).length ≤ acc.length := by
          unfold chomp
          split
          · exact (List.dropLast_sublist acc).length_le
          · exact Nat.le_refl _
        rw [heq]
        omega
      · have hle := ih [] line hline
        simp only [List.length_nil, List.length_cons] at hle ⊢
        omega
    · rw [if_neg hx] at hline
      have hle := ih (acc ++ [x]) line hline
      simp only [List.length_append, List.length_cons, List.length_nil] at hle ⊢
      omega

/-- A text that a separator does not end has one line more than separators. -/
theorem length_linesFrom {acc text : List α} (hne : acc ++ text ≠ [])
    (hlast : text.getLast? ≠ some lf) :
    (linesFrom lf cr acc text).length = text.count lf + 1 := by
  induction text generalizing acc with
  | nil =>
    rw [List.append_nil] at hne
    simp [linesFrom, hne]
  | cons x text ih =>
    rw [linesFrom]
    by_cases hx : x = lf
    · subst hx
      have htext : text ≠ [] := by
        rintro rfl
        simp at hlast
      rw [List.getLast?_cons_of_ne_nil htext] at hlast
      rw [if_pos rfl, List.length_cons, ih (by simpa using htext) hlast, List.count_cons_self]
    · have htail : text.getLast? ≠ some lf := by
        cases text with
        | nil => simp
        | cons y text => rwa [List.getLast?_cons_of_ne_nil (List.cons_ne_nil _ _)] at hlast
      rw [if_neg hx, ih (by simp) htail, List.count_cons_of_ne hx]

/-- The first separator splits a text into the piece before it and the rest. -/
theorem split_of_idxOf?_eq_some {text : List α} {i : ℕ} (h : text.idxOf? lf = some i) :
    text = text.take i ++ lf :: text.drop (i + 1) ∧ lf ∉ text.take i ∧ i < text.length := by
  rw [List.idxOf?_eq_some_iff] at h
  obtain ⟨hi, hfound, hbefore⟩ := h
  refine ⟨?_, ?_, hi⟩
  · rw [← hfound, List.getElem_cons_drop, List.take_append_drop]
  · intro hmem
    obtain ⟨j, hj, hlf⟩ := List.getElem_of_mem hmem
    rw [List.length_take] at hj
    rw [List.getElem_take] at hlf
    exact hbefore j (by omega) hlf

/-- The separator behind a piece without one is the first. -/
theorem idxOf?_piece {piece : List α} (hpiece : lf ∉ piece) (rest : List α) :
    (piece ++ lf :: rest).idxOf? lf = some piece.length := by
  refine List.idxOf?_eq_some_iff.mpr ⟨by simp, by simp, fun j hj heq => ?_⟩
  rw [List.getElem_append_left hj] at heq
  exact hpiece (heq ▸ List.getElem_mem hj)

/-- A text that is empty or ends with a separator. -/
def Terminated (lf : α) (text : List α) : Prop := text = [] ∨ text.getLast? = some lf

/-- A text that ends a line has its own lines, and what follows has the others. -/
theorem linesFrom_append {acc text : List α} (h : text.getLast? = some lf) (rest : List α) :
    linesFrom lf cr acc (text ++ rest) = linesFrom lf cr acc text ++ lines lf cr rest := by
  induction text generalizing acc with
  | nil => cases h
  | cons x text ih =>
    rw [List.cons_append, linesFrom, linesFrom]
    cases text with
    | nil =>
      have hx : x = lf := by simpa using h
      rw [if_pos hx, if_pos hx]
      rfl
    | cons y text =>
      have hlast : (y :: text).getLast? = some lf := by simpa using h
      split
      · rw [ih hlast, List.cons_append]
      · exact ih hlast

/-- Behind a separator the lines start anew. -/
theorem lines_append {text : List α} (h : Terminated lf text) (rest : List α) :
    lines lf cr (text ++ rest) = lines lf cr text ++ lines lf cr rest := by
  rcases h with rfl | hlast
  · rfl
  · exact linesFrom_append hlast rest

/-- A text has lines unless it is empty. -/
theorem lines_eq_nil_iff {text : List α} : lines lf cr text = [] ↔ text = [] := by
  have hfrom : ∀ (text acc : List α), linesFrom lf cr acc text = [] → acc = [] ∧ text = [] := by
    intro text
    induction text with
    | nil =>
      intro acc h
      by_cases hacc : acc = []
      · exact ⟨hacc, rfl⟩
      · simp [linesFrom, hacc] at h
    | cons x text ih =>
      intro acc h
      rw [linesFrom] at h
      split at h
      · cases h
      · exact absurd (ih _ h).1 (by simp)
  exact ⟨fun h => (hfrom text [] h).2, fun h => by rw [h]; rfl⟩

/-- Every text is made of complete lines and a piece without a separator. -/
theorem exists_terminated_append (lf : α) (text : List α) :
    ∃ front piece, text = front ++ piece ∧ Terminated lf front ∧ lf ∉ piece := by
  induction text with
  | nil => exact ⟨[], [], rfl, Or.inl rfl, by simp⟩
  | cons x text ih =>
    obtain ⟨front, piece, rfl, hfront, hpiece⟩ := ih
    rcases hfront with rfl | hlast
    · by_cases hx : x = lf
      · exact ⟨[x], piece, rfl, Or.inr (by simp [hx]), hpiece⟩
      · refine ⟨[], x :: piece, rfl, Or.inl rfl, ?_⟩
        simp [Ne.symm hx, hpiece]
    · refine ⟨x :: front, piece, rfl, Or.inr ?_, hpiece⟩
      rw [List.getLast?_cons, hlast]
      rfl

omit [DecidableEq α] in
/-- A piece behind complete lines ends the text with a separator only if there is none. -/
theorem terminated_append_iff {front piece : List α} (h : Terminated lf front)
    (hpiece : lf ∉ piece) :
    Terminated lf (front ++ piece) ↔ piece = [] := by
  refine ⟨fun happend => ?_, fun hnil => by rwa [hnil, List.append_nil]⟩
  by_contra hne
  rcases happend with hnil | hlast
  · exact hne (List.append_eq_nil_iff.mp hnil).2
  · rw [List.getLast?_append_of_ne_nil _ hne] at hlast
    exact hpiece (List.mem_of_getLast? hlast)

/-- A text up to its last separator, which is in it. -/
def complete (lf : α) (text : List α) : List α := text.rdropWhile fun x => x != lf

/-- What stands behind the last separator. -/
def unterminated (lf : α) (text : List α) : List α := text.rtakeWhile fun x => x != lf

/-- There is only one way to part complete lines from an unterminated piece. -/
theorem complete_append {front piece : List α} (h : Terminated lf front) (hpiece : lf ∉ piece) :
    complete lf (front ++ piece) = front ∧ unterminated lf (front ++ piece) = piece := by
  induction piece using List.reverseRecOn with
  | nil =>
    rw [List.append_nil, complete, unterminated, List.rdropWhile_eq_self_iff,
      List.rtakeWhile_eq_nil_iff]
    have hlast (hne : front ≠ []) : ¬(front.getLast hne != lf) = true := by
      have heq := h.resolve_left hne
      rw [List.getLast?_eq_some_getLast hne, Option.some.injEq] at heq
      simp [heq]
    exact ⟨hlast, hlast⟩
  | append_singleton piece x ih =>
    rw [List.mem_append, List.mem_singleton, not_or] at hpiece
    obtain ⟨hcomplete, hunterminated⟩ := ih hpiece.1
    have hx : (x != lf) = true := bne_iff_ne.mpr (Ne.symm hpiece.2)
    rw [← List.append_assoc, complete, unterminated,
      List.rdropWhile_concat_pos (fun y => y != lf) _ _ hx,
      List.rtakeWhile_concat_pos (fun y => y != lf) _ _ hx]
    exact ⟨hcomplete, congrArg (· ++ [x]) hunterminated⟩

end Textual
