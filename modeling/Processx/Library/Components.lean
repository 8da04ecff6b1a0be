import Mathlib.Data.List.Infix

/-!
# Components evaluated on a stack

A list of components is read from left to right. A component is skipped, or takes the last one off
the stack, or goes on the stack itself. What is left on the stack does neither, so to evaluate it
again changes nothing.
-/

namespace Components

variable {κ : Type} (skip up : κ → Bool)

/-- What a component does to the stack. Its top is at the end. To go up from the empty stack does
nothing. -/
def visit (stack : List κ) (c : κ) : List κ :=
  if skip c then stack else if up c then stack.dropLast else stack ++ [c]

/-- Reads the components from left to right. -/
def evaluate (stack cs : List κ) : List κ := cs.foldl (visit skip up) stack

/-- A component that goes on the stack. -/
def Plain (c : κ) : Prop := skip c = false ∧ up c = false

variable {skip up}

/-- A path without components leaves the stack alone. -/
@[simp] theorem evaluate_nil (stack : List κ) : evaluate skip up stack [] = stack := rfl

/-- The first component is visited first. -/
@[simp] theorem evaluate_cons (stack : List κ) (c : κ) (cs : List κ) :
    evaluate skip up stack (c :: cs) = evaluate skip up (visit skip up stack c) cs := rfl

/-- A path in two parts is evaluated one part after the other. -/
theorem evaluate_append (stack cs ds : List κ) :
    evaluate skip up stack (cs ++ ds) = evaluate skip up (evaluate skip up stack cs) ds :=
  List.foldl_append

/-- A component that is skipped does nothing. -/
theorem visit_skip {stack : List κ} {c : κ} (h : skip c = true) : visit skip up stack c = stack :=
  if_pos h

/-- A component that goes up drops the last one of the stack. -/
theorem visit_up {stack : List κ} {c : κ} (hskip : skip c = false) (hup : up c = true) :
    visit skip up stack c = stack.dropLast := by
  simp only [visit, hskip, hup, if_true, Bool.false_eq_true, if_false]

/-- Any other component goes to the end of the stack. -/
theorem visit_plain {stack : List κ} {c : κ} (h : Plain skip up c) :
    visit skip up stack c = stack ++ [c] := by
  simp only [visit, h.1, h.2, Bool.false_eq_true, if_false]

/-- A component that is skipped may be left out at the end. -/
theorem evaluate_append_skip {stack cs : List κ} {c : κ} (h : skip c = true) :
    evaluate skip up stack (cs ++ [c]) = evaluate skip up stack cs := by
  rw [evaluate_append, evaluate_cons, visit_skip h, evaluate_nil]

/-- The rule for what holds of every element of the stack: only plain components come on it. -/
theorem forall_mem_evaluate {P : κ → Prop} {stack cs : List κ} (hstack : ∀ c ∈ stack, P c)
    (hcs : ∀ c ∈ cs, Plain skip up c → P c) : ∀ c ∈ evaluate skip up stack cs, P c := by
  induction cs generalizing stack with
  | nil => exact hstack
  | cons d cs ih =>
    refine ih ?_ (fun c hc => hcs c (List.mem_cons_of_mem d hc))
    intro c hc
    unfold visit at hc
    split at hc
    · exact hstack c hc
    · split at hc
      · exact hstack c (List.mem_of_mem_dropLast hc)
      · rename_i hskip hup
        rcases List.mem_append.mp hc with hc | hc
        · exact hstack c hc
        · obtain rfl := List.mem_singleton.mp hc
          exact hcs c List.mem_cons_self ⟨by simpa using hskip, by simpa using hup⟩

/-- What is left on the stack is plain. -/
theorem plain_of_mem_evaluate {cs : List κ} :
    ∀ c ∈ evaluate skip up [] cs, Plain skip up c :=
  forall_mem_evaluate (by simp) fun _ _ h => h

/-- Plain components all stay. -/
theorem evaluate_of_plain {stack cs : List κ} (h : ∀ c ∈ cs, Plain skip up c) :
    evaluate skip up stack cs = stack ++ cs := by
  induction cs generalizing stack with
  | nil => rw [evaluate_nil, List.append_nil]
  | cons c cs ih =>
    rw [evaluate_cons, visit_plain (h c List.mem_cons_self),
      ih fun d hd => h d (List.mem_cons_of_mem c hd), List.append_assoc, List.singleton_append]

/-- To evaluate what is left on the stack changes nothing. -/
theorem evaluate_evaluate (cs : List κ) :
    evaluate skip up [] (evaluate skip up [] cs) = evaluate skip up [] cs :=
  evaluate_of_plain plain_of_mem_evaluate

variable {α : Type} [DecidableEq α]

/-- There are no separators in the components of a text. -/
theorem not_mem_of_mem_splitOn {sep : α} {text c : List α} (h : c ∈ text.splitOn sep) :
    sep ∉ c := by
  induction text generalizing c with
  | nil =>
    obtain rfl : c = [] := by simpa using h
    exact List.not_mem_nil
  | cons a text ih =>
    rw [List.splitOn_cons_eq_if_modifyHead] at h
    split at h
    · rcases List.mem_cons.mp h with rfl | hmem
      · exact List.not_mem_nil
      · exact ih hmem
    · rename_i hsep
      rcases hsplit : text.splitOn sep with _ | ⟨first, later⟩
      · exact absurd hsplit (List.splitOn_ne_nil _ _)
      · rw [hsplit, List.modifyHead_cons] at h
        rcases List.mem_cons.mp h with rfl | hmem
        · refine fun hfirst => (List.mem_cons.mp hfirst).elim (fun heq => hsep ?_) (ih ?_)
          · simpa using heq.symm
          · rw [hsplit]
            exact List.mem_cons_self
        · exact ih (hsplit ▸ List.mem_cons_of_mem _ hmem)

end Components
