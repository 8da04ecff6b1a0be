import Mathlib.Tactic.Common
import Mathlib.Data.List.Forall2

/-!
# Splitting a command line

The rules by which a C runtime takes a command line apart. Arguments are separated by blanks.
Quotes group. In a run of backslashes before a quote each pair stands for one backslash, and
one that is left over makes the quote a character of the argument. All other backslashes stand
for themselves. The characters are of an arbitrary type.
-/

namespace Argv

variable {α : Type} [DecidableEq α]

/-- The characters that have a meaning. -/
structure Rules (α : Type) where
  quote : α
  backslash : α
  isBlank : α → Bool
  quote_ne_backslash : quote ≠ backslash
  not_blank_quote : isBlank quote = false
  not_blank_backslash : isBlank backslash = false

/-- A command line that is read from left to right: the complete arguments, the argument at
hand, if there is one, the backslashes that were read last, and whether a quote is open. -/
structure Scan (α : Type) where
  done : List (List α)
  arg : Option (List α)
  slashes : ℕ
  quoted : Bool

/-- Between two arguments. -/
def Scan.between (done : List (List α)) : Scan α := ⟨done, none, 0, false⟩

/-- One character. -/
def Scan.step (r : Rules α) (s : Scan α) (c : α) : Scan α :=
  let arg := s.arg.getD []
  if c = r.backslash then { s with arg := some arg, slashes := s.slashes + 1 }
  else if c = r.quote then
    let arg := arg ++ List.replicate (s.slashes / 2) r.backslash
    if s.slashes % 2 = 0 then { s with arg := some arg, slashes := 0, quoted := !s.quoted }
    else { s with arg := some (arg ++ [c]), slashes := 0 }
  else
    let arg := arg ++ List.replicate s.slashes r.backslash
    if r.isBlank c ∧ !s.quoted then
      if s.arg.isSome then .between (s.done ++ [arg]) else s
    else { s with arg := some (arg ++ [c]), slashes := 0 }

/-- The arguments when the command line ends. -/
def Scan.finish (r : Rules α) (s : Scan α) : List (List α) :=
  s.done ++ (s.arg.map (· ++ List.replicate s.slashes r.backslash)).toList

/-- The arguments of a command line. -/
def split (r : Rules α) (commandLine : List α) : List (List α) :=
  (commandLine.foldl (Scan.step r) (.between [])).finish r

variable (r : Rules α)

/-- A backslash is counted. -/
@[simp] theorem step_backslash (s : Scan α) :
    s.step r r.backslash = { s with arg := some (s.arg.getD []), slashes := s.slashes + 1 } := by
  simp [Scan.step]

/-- Behind an even number of backslashes, half of them stand and the quote opens or closes. -/
theorem step_quote_even (s : Scan α) (h : s.slashes % 2 = 0) :
    s.step r r.quote =
      { s with
        arg := some (s.arg.getD [] ++ List.replicate (s.slashes / 2) r.backslash)
        slashes := 0, quoted := !s.quoted } := by
  simp [Scan.step, r.quote_ne_backslash, h]

/-- Behind an odd number, half of them stand and the quote stands too. -/
theorem step_quote_odd (s : Scan α) (h : s.slashes % 2 = 1) :
    s.step r r.quote =
      { s with
        arg := some (s.arg.getD [] ++ List.replicate (s.slashes / 2) r.backslash ++ [r.quote])
        slashes := 0 } := by
  simp [Scan.step, r.quote_ne_backslash, h]

/-- A character without a meaning where it stands. -/
theorem step_literal (s : Scan α) {c : α} (hslash : c ≠ r.backslash) (hquote : c ≠ r.quote)
    (hblank : r.isBlank c = true → s.quoted = true) :
    s.step r c =
      { s with
        arg := some (s.arg.getD [] ++ List.replicate s.slashes r.backslash ++ [c])
        slashes := 0 } := by
  have hnot : ¬ (r.isBlank c = true ∧ (!s.quoted) = true) := by
    rintro ⟨hb, hq⟩
    rw [hblank hb] at hq
    cases hq
  unfold Scan.step
  dsimp only
  rw [if_neg hslash, if_neg hquote, if_neg hnot]

/-- All of `arg` was read, and nothing else is open. -/
def Scan.Holds (s : Scan α) (done : List (List α)) (arg : List α) : Prop :=
  s.done = done ∧ s.quoted = false ∧
    s.arg.map (· ++ List.replicate s.slashes r.backslash) = some arg

/-- A piece of the command line is read as an argument. -/
def Reads (piece arg : List α) : Prop :=
  ∀ done, (piece.foldl (Scan.step r) (.between done)).Holds r done arg

/-- Text without quotes and blanks stands for itself. -/
theorem reads_plain {text : List α} (hne : text ≠ [])
    (h : ∀ c ∈ text, c ≠ r.quote ∧ r.isBlank c = false) : Reads r text text := by
  intro done
  -- what was read so far, whether or not backslashes are at its end
  have hread : ∀ (text : List α) (s : Scan α) (before : List α), text ≠ [] →
      (∀ c ∈ text, c ≠ r.quote ∧ r.isBlank c = false) → s.done = done → s.quoted = false →
      s.arg.getD [] ++ List.replicate s.slashes r.backslash = before →
      (text.foldl (Scan.step r) s).Holds r done (before ++ text) := by
    intro text
    induction text with
    | nil => exact fun _ _ hne => absurd rfl hne
    | cons c text ih =>
      intro s before _ hall hdone hquoted hbefore
      obtain ⟨hquote, hblank⟩ := hall c List.mem_cons_self
      have hstep : (s.step r c).done = done ∧ (s.step r c).quoted = false ∧
          (s.step r c).arg.map (· ++ List.replicate (s.step r c).slashes r.backslash) =
            some (before ++ [c]) := by
        by_cases hslash : c = r.backslash
        · subst hslash
          rw [step_backslash]
          refine ⟨hdone, hquoted, ?_⟩
          rw [← hbefore, Option.map_some, List.replicate_succ', List.append_assoc]
        · rw [step_literal r s hslash hquote (by simp [hblank])]
          refine ⟨hdone, hquoted, ?_⟩
          simp [← hbefore]
      rw [List.foldl_cons]
      cases text with
      | nil => exact hstep
      | cons c' text =>
        have hgetD : (s.step r c).arg.getD [] ++
            List.replicate (s.step r c).slashes r.backslash = before ++ [c] := by
          obtain ⟨arg, harg, heq⟩ := Option.map_eq_some_iff.mp hstep.2.2
          rw [harg, Option.getD_some, heq]
        have hrest := ih (s.step r c) (before ++ [c]) (List.cons_ne_nil _ _)
          (fun d hd => hall d (List.mem_cons_of_mem _ hd)) hstep.1 hstep.2.1 hgetD
        rwa [List.append_assoc, List.singleton_append] at hrest
  exact hread text (.between done) [] hne h rfl rfl rfl

/-- Does a run of backslashes, possibly none, come before a quote or before the end? -/
def slashesHit : List α → Bool
  | [] => true
  | c :: text => if c = r.backslash then slashesHit text else c = r.quote

/-- Text as it is to be written between two quotes. -/
def escape : List α → List α
  | [] => []
  | c :: text =>
    if c = r.backslash then
      if slashesHit r text then r.backslash :: r.backslash :: escape text
      else r.backslash :: escape text
    else if c = r.quote then r.backslash :: r.quote :: escape text
    else c :: escape text

/-- Escaped text and the closing quote. Backslashes read before count twice if they come before
a quote. -/
theorem foldl_escape (done : List (List α)) (text : List α) (before : List α) (n : ℕ) :
    (escape r text ++ [r.quote]).foldl (Scan.step r)
        ⟨done, some before, if slashesHit r text then 2 * n else n, true⟩ =
      ⟨done, some (before ++ List.replicate n r.backslash ++ text), 0, false⟩ := by
  induction text generalizing before n with
  | nil =>
    rw [escape, List.nil_append, List.foldl_cons, List.foldl_nil, step_quote_even _ _ (by
      simp [slashesHit])]
    simp [slashesHit]
  | cons c text ih =>
    by_cases hslash : c = r.backslash
    · subst hslash
      have hnext := ih before (n + 1)
      have hmore : before ++ List.replicate (n + 1) r.backslash ++ text =
          before ++ List.replicate n r.backslash ++ r.backslash :: text := by
        rw [List.replicate_succ']
        simp
      rw [hmore] at hnext
      rw [slashesHit, if_pos rfl, escape, if_pos rfl]
      by_cases hhit : slashesHit r text = true
      · rw [if_pos hhit] at hnext ⊢
        rw [if_pos hhit, List.cons_append, List.cons_append, List.foldl_cons, List.foldl_cons,
          step_backslash, step_backslash]
        exact hnext
      · rw [if_neg hhit] at hnext ⊢
        rw [if_neg hhit, List.cons_append, List.foldl_cons, step_backslash]
        exact hnext
    · have hnext := ih (before ++ List.replicate n r.backslash ++ [c]) 0
      have hzero : (if slashesHit r text then 2 * 0 else 0) = 0 := ite_self 0
      rw [hzero, List.replicate_zero, List.append_nil, List.append_assoc _ [c],
        List.singleton_append] at hnext
      rw [slashesHit, if_neg hslash, escape, if_neg hslash]
      by_cases hquote : c = r.quote
      · subst hquote
        have hodd : (2 * n + 1) % 2 = 1 ∧ (2 * n + 1) / 2 = n := by omega
        have hhit : (if decide (r.quote = r.quote) = true then 2 * n else n) = 2 * n := by simp
        rw [if_pos rfl, hhit, List.cons_append, List.cons_append, List.foldl_cons, List.foldl_cons,
          step_backslash, step_quote_odd _ _ hodd.1]
        simpa [hodd.2] using hnext
      · have hstep := step_literal r ⟨done, some before, n, true⟩ hslash hquote fun _ => rfl
        rw [if_neg hquote, List.cons_append, List.foldl_cons]
        simpa [hquote, hstep] using hnext

/-- Escaped text between two quotes stands for the text. -/
theorem reads_escape (text : List α) :
    Reads r (r.quote :: (escape r text ++ [r.quote])) text := by
  intro done
  have hfold := foldl_escape r done text [] 0
  have hzero : (if slashesHit r text then 2 * 0 else 0) = 0 := ite_self 0
  rw [hzero] at hfold
  rw [List.foldl_cons, step_quote_even r _ rfl]
  simp only [Scan.between, Option.getD_none, Nat.zero_div, List.replicate_zero, List.append_nil,
    Bool.not_false]
  rw [hfold]
  exact ⟨rfl, rfl, by simp⟩

/-- Text without quotes and backslashes does not change. -/
theorem escape_eq_self {text : List α} (h : ∀ c ∈ text, c ≠ r.quote ∧ c ≠ r.backslash) :
    escape r text = text := by
  induction text with
  | nil => rfl
  | cons c text ih =>
    obtain ⟨hquote, hslash⟩ := h c List.mem_cons_self
    rw [escape, if_neg hslash, if_neg hquote, ih fun d hd => h d (List.mem_cons_of_mem _ hd)]

/-- A blank ends an argument. -/
theorem Scan.Holds.step_blank {s : Scan α} {done : List (List α)} {arg : List α}
    (h : s.Holds r done arg) {blank : α} (hblank : r.isBlank blank = true) :
    s.step r blank = .between (done ++ [arg]) := by
  obtain ⟨hdone, hquoted, harg⟩ := h
  obtain ⟨before, hbefore, heq⟩ := Option.map_eq_some_iff.mp harg
  have hslash : blank ≠ r.backslash := by
    rintro rfl
    rw [r.not_blank_backslash] at hblank
    cases hblank
  have hquote : blank ≠ r.quote := by
    rintro rfl
    rw [r.not_blank_quote] at hblank
    cases hblank
  simp [Scan.step, hslash, hquote, hblank, hquoted, hbefore, hdone, ← heq]

omit [DecidableEq α] in
/-- The end of the command line ends the last argument. -/
theorem Scan.Holds.finish {s : Scan α} {done : List (List α)} {arg : List α}
    (h : s.Holds r done arg) : s.finish r = done ++ [arg] := by
  obtain ⟨hdone, -, harg⟩ := h
  rw [Scan.finish, harg, hdone]
  rfl

/-- Pieces that are read as arguments, with a blank between any two of them. -/
theorem split_intercalate {pieces args : List (List α)} (h : List.Forall₂ (Reads r) pieces args)
    {blank : α} (hblank : r.isBlank blank = true) :
    split r ([blank].intercalate pieces) = args := by
  have hall : ∀ (pieces args : List (List α)) (done : List (List α)),
      List.Forall₂ (Reads r) pieces args →
      (([blank].intercalate pieces).foldl (Scan.step r) (.between done)).finish r =
        done ++ args := by
    intro pieces args done h
    induction h generalizing done with
    | nil => simp [Scan.between, Scan.finish]
    | @cons piece arg pieces args hpiece hrest ih =>
      cases pieces with
      | nil =>
        cases hrest
        simpa using (hpiece done).finish r
      | cons piece' pieces =>
        have hsplit : [blank].intercalate (piece :: piece' :: pieces) =
            piece ++ blank :: [blank].intercalate (piece' :: pieces) := by
          simp [List.intercalate]
        rw [hsplit, List.foldl_append, List.foldl_cons, (hpiece done).step_blank r hblank, ih]
        simp
  exact hall pieces args [] h

end Argv
