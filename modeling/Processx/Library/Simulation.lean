import Processx.Library.Programs

/-!
# Programs that follow other ones

What is left of a program after some of its actions, and programs that do what another one does on
a part of their world. While a program runs, an assertion says what is left of the program that it
follows; so its runs are runs of that one.
-/

namespace Interruptible

variable {W V C D M N E α β ρ : Type}

/-- A program goes on in a world until another one is left. -/
inductive Reaches (env : W → M → Option W) (p : Prog W C E α) (w : W) : Prog W C E α → W → Prop
  | start : Reaches env p w p w
  | move {q : Prog W C E α} {v v' : W} {m : M} : Reaches env p w q v → env v m = some v' →
      Reaches env p w q v'
  | act {ρ : Type} {a : Action W C ρ} {next : ρ → Prog W C E α} {v v' : W} {c : C} {r : ρ} :
      Reaches env p w (.act a next) v → a v c = some (r, v') → Reaches env p w (next r) v'

variable {env : W → M → Option W} {p q : Prog W C E α} {w v v' w' : W}

/-- A run of what is left is the end of a run. -/
theorem Reaches.runs (h : Reaches env p w q v) {o : Option (Except E α)}
    (hrun : Runs env q v o w') : Runs env p w o w' := by
  induction h with
  | start => exact hrun
  | move _ hmove ih => exact ih (runs_of_move hmove hrun)
  | act _ hact ih => exact ih ⟨_, .refl, Or.inr ⟨_, _, _, hact, hrun⟩⟩

/-- Any program can be cut off before it does anything. -/
theorem runs_none (p : Prog W C E α) (w : W) : Runs env p w none w := by
  cases p with
  | ret a => exact ⟨.refl, Or.inl rfl⟩
  | throw e => exact ⟨.refl, Or.inl rfl⟩
  | spin => exact ⟨.refl, rfl⟩
  | act a next => exact ⟨w, .refl, Or.inl ⟨rfl, rfl⟩⟩

/-- A program that reaches a state may be stopped there. -/
theorem Reaches.cut (h : Reaches env p w q v) : Runs env p w none v := h.runs (runs_none q v)

/-- A program that reaches a `return` returns. -/
theorem Reaches.ret {a : α} (h : Reaches env p w (.ret a) v) : Runs env p w (some (.ok a)) v :=
  h.runs ⟨.refl, Or.inr rfl⟩

/-- A program that reaches a `throw` fails. -/
theorem Reaches.throw {e : E} (h : Reaches env p w (.throw e) v) :
    Runs env p w (some (.error e)) v :=
  h.runs ⟨.refl, Or.inr rfl⟩

/-- The program `p` follows `q` on the part `part` of its world: it starts with `P` and ends with
`P`, and what its runs do to the part is what runs of `q` do. -/
def Follows (env : W → M → Option W) (env' : V → N → Option V) (part : W → V) (P : W → Prop)
    (p : Prog W C E α) (q : Prog V D E α) : Prop :=
  ∀ w o w', P w → Runs env p w o w' →
    Runs env' q (part w) o (part w') ∧ (o ≠ none → P w')

/-- What is ensured by the program that is followed. -/
theorem Follows.ensures {env' : V → N → Option V} {part : W → V} {P : W → Prop}
    {p : Prog W C E α} {q : Prog V D E α} (h : Follows env env' part P p q) {I R : V → Prop}
    {Q : Except E α → V → Prop} (hq : Ensures env' I R q Q) :
    Ensures env (fun w => I (part w)) (fun w => P w ∧ R (part w)) p
      (fun r w => P w ∧ Q r (part w)) := by
  intro w o w' hw hrun
  obtain ⟨hpart, hend⟩ := h w o w' hw.1 hrun
  obtain ⟨hI, hQ⟩ := hq (part w) o (part w') hw.2 hpart
  exact ⟨hI, fun r hr => ⟨hend (by simp [hr]), hQ r hr⟩⟩

/-- To show that a program follows another one: while it runs, some part of the other one is left,
and in the end nothing but the result. -/
theorem follows_of_ensures {env' : V → N → Option V} {part : W → V} {P : W → Prop}
    {p : Prog W C E α} {q : Prog V D E α}
    (h : ∀ v, Ensures env (fun w => ∃ rest, Reaches env' q v rest (part w))
      (fun w => P w ∧ part w = v) p
      (fun r w => P w ∧ Reaches env' q v (.ofExcept r) (part w))) :
    Follows env env' part P p q := by
  intro w o w' hw hrun
  obtain ⟨⟨rest, hrest⟩, hend⟩ := h (part w) w o w' ⟨hw, rfl⟩ hrun
  cases o with
  | none => exact ⟨hrest.cut, fun hne => absurd rfl hne⟩
  | some r =>
    obtain ⟨hP, hreach⟩ := hend r rfl
    refine ⟨?_, fun _ => hP⟩
    cases r with
    | ok a => exact hreach.ret
    | error e => exact hreach.throw

end Interruptible
