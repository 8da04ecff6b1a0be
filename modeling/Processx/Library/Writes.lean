import Mathlib.Logic.Function.Basic
import Mathlib.Tactic.Common

/-!
# Writes to a memory

A program that fills a buffer writes one value after another, each to a place of its own choice.
Places may be written several times, and what counts then is the last value. The places and what
they hold in the end are two different questions: the first is about bounds, the second about
contents.
-/

namespace Writes

variable {α : Type}

/-- The writes of a text that starts at some place. -/
def text : ℕ → List α → List (ℕ × α)
  | _, [] => []
  | pos, c :: rest => (pos, c) :: text (pos + 1) rest

/-- The memory after some writes. -/
def apply : List (ℕ × α) → (ℕ → α) → ℕ → α
  | [], memory => memory
  | write :: writes, memory => apply writes (Function.update memory write.1 write.2)

/-- All places are at `low` or behind it, and in front of `high`. -/
def Within (low high : ℕ) (writes : List (ℕ × α)) : Prop :=
  ∀ write ∈ writes, low ≤ write.1 ∧ write.1 < high

/-- The memory holds a text from some place on. -/
def Holds (memory : ℕ → α) (pos : ℕ) (t : List α) : Prop :=
  ∀ i c, t[i]? = some c → memory (pos + i) = c

/-- No writes are within any bounds. -/
@[simp] theorem within_nil (low high : ℕ) : Within low high ([] : List (ℕ × α)) :=
  fun _ h => absurd h List.not_mem_nil

/-- A sequence of writes is within the bounds when its first write and the later ones are. -/
@[simp] theorem within_cons {low high pos : ℕ} {c : α} {writes : List (ℕ × α)} :
    Within low high ((pos, c) :: writes) ↔ (low ≤ pos ∧ pos < high) ∧ Within low high writes := by
  simp [Within]

/-- Two sequences in a row are within the bounds when both are. -/
@[simp] theorem within_append {low high : ℕ} {writes more : List (ℕ × α)} :
    Within low high (writes ++ more) ↔ Within low high writes ∧ Within low high more :=
  List.forall_mem_append

/-- Writes within some bounds are within wider ones. -/
theorem Within.mono {low high low' high' : ℕ} {writes : List (ℕ × α)} (h : Within low high writes)
    (hlow : low' ≤ low) (hhigh : high ≤ high') : Within low' high' writes := by
  intro write hmem
  have hplace := h write hmem
  omega

/-- A text takes as many places as it has values. -/
theorem within_text (pos : ℕ) (t : List α) : Within pos (pos + t.length) (text pos t) := by
  induction t generalizing pos with
  | nil => exact within_nil _ _
  | cons c rest ih =>
    rw [text, within_cons, List.length_cons]
    exact ⟨by omega, (ih (pos + 1)).mono (by omega) (by omega)⟩

/-- A text in two parts is written part after part. -/
theorem text_append (pos : ℕ) (t more : List α) :
    text pos (t ++ more) = text pos t ++ text (pos + t.length) more := by
  induction t generalizing pos with
  | nil => rfl
  | cons c rest ih =>
    rw [List.cons_append, text, text, ih, List.cons_append, List.length_cons, Nat.add_assoc,
      Nat.add_comm 1]

/-- Each element of a text is written at its own place. -/
theorem mem_text {pos i : ℕ} {t : List α} {c : α} (h : t[i]? = some c) :
    (pos + i, c) ∈ text pos t := by
  induction t generalizing pos i with
  | nil => simp at h
  | cons d rest ih =>
    cases i with
    | zero =>
      obtain rfl : d = c := by simpa using h
      exact List.mem_cons_self
    | succ i =>
      rw [List.getElem?_cons_succ] at h
      have hrest : (pos + 1 + i, c) ∈ text (pos + 1) rest := ih h
      rw [Nat.add_right_comm] at hrest
      exact List.mem_cons_of_mem _ hrest

/-- Two sequences of writes are carried out one after the other. -/
theorem apply_append (writes more : List (ℕ × α)) (memory : ℕ → α) :
    apply (writes ++ more) memory = apply more (apply writes memory) := by
  induction writes generalizing memory with
  | nil => rfl
  | cons write writes ih => exact ih _

/-- Other places keep what they hold. -/
theorem Within.apply_eq {low high i : ℕ} {writes : List (ℕ × α)} (h : Within low high writes)
    (hi : i < low ∨ high ≤ i) (memory : ℕ → α) : apply writes memory i = memory i := by
  induction writes generalizing memory with
  | nil => rfl
  | cons write writes ih =>
    obtain ⟨hplace, hrest⟩ := within_cons.mp h
    rw [apply, ih hrest, Function.update_of_ne]
    omega

/-- Memory holds the empty text anywhere. -/
@[simp] theorem holds_nil (memory : ℕ → α) (pos : ℕ) : Holds memory pos [] := by
  simp [Holds]

/-- Memory holds a text when it holds the first element and, one place on, the others. -/
theorem holds_cons {memory : ℕ → α} {pos : ℕ} {c : α} {t : List α} :
    Holds memory pos (c :: t) ↔ memory pos = c ∧ Holds memory (pos + 1) t := by
  constructor
  · intro h
    refine ⟨h 0 c rfl, fun i d hd => ?_⟩
    rw [Nat.add_right_comm]
    exact h (i + 1) d (by simpa using hd)
  · rintro ⟨hfirst, hrest⟩ i d hd
    cases i with
    | zero => simpa [hfirst] using hd
    | succ i =>
      rw [← Nat.add_assoc, Nat.add_right_comm]
      exact hrest i d (by simpa using hd)

/-- Memory holds a text in two parts when it holds each part at its place. -/
theorem holds_append {memory : ℕ → α} {pos : ℕ} {t more : List α} :
    Holds memory pos (t ++ more) ↔ Holds memory pos t ∧ Holds memory (pos + t.length) more := by
  induction t generalizing pos with
  | nil => simp
  | cons c t ih =>
    rw [List.cons_append, holds_cons, holds_cons, ih, and_assoc, List.length_cons,
      Nat.add_right_comm, Nat.add_assoc]

/-- A text stays where it is while other places are written. -/
theorem Holds.keeps {memory : ℕ → α} {pos low high : ℕ} {t : List α} {writes : List (ℕ × α)}
    (h : Holds memory pos t) (hwrites : Within low high writes)
    (hapart : pos + t.length ≤ low ∨ high ≤ pos) : Holds (apply writes memory) pos t := by
  intro i c hc
  have hlt : i < t.length := (List.getElem?_eq_some_iff.mp hc).1
  rw [hwrites.apply_eq (by omega)]
  exact h i c hc

/-- Behind the writes of a text the memory holds it. -/
theorem holds_apply_text (pos : ℕ) (t : List α) (memory : ℕ → α) :
    Holds (apply (text pos t) memory) pos t := by
  induction t generalizing pos memory with
  | nil => exact holds_nil _ _
  | cons c rest ih =>
    rw [text, apply, holds_cons]
    refine ⟨?_, ih (pos + 1) _⟩
    rw [(within_text (pos + 1) rest).apply_eq (by omega), Function.update_self]

/-- From one place the memory holds a single text up to its terminator. -/
theorem Holds.eq_of_terminated {memory : ℕ → α} {pos : ℕ} {stop : α} {t t' : List α}
    (h : Holds memory pos (t ++ [stop])) (h' : Holds memory pos (t' ++ [stop]))
    (hstop : stop ∉ t) (hstop' : stop ∉ t') : t = t' := by
  induction t generalizing pos t' with
  | nil =>
    cases t' with
    | nil => rfl
    | cons c' t' =>
      have hfirst := (holds_cons.mp h).1.symm.trans (holds_cons.mp h').1
      exact absurd hfirst (List.ne_of_not_mem_cons hstop')
  | cons c t ih =>
    cases t' with
    | nil =>
      have hfirst := (holds_cons.mp h').1.symm.trans (holds_cons.mp h).1
      exact absurd hfirst (List.ne_of_not_mem_cons hstop)
    | cons c' t' =>
      obtain ⟨hc, hrest⟩ := holds_cons.mp h
      obtain ⟨hc', hrest'⟩ := holds_cons.mp h'
      rw [← hc, ← hc', ih hrest hrest' (List.not_mem_of_not_mem_cons hstop)
        (List.not_mem_of_not_mem_cons hstop')]

end Writes
