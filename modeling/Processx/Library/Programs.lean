import Mathlib.Logic.Relation

/-!
# Programs that can be interrupted

A program is a tree of atomic actions on a world. Before each action, and when the
program stops, the world may move on its own: a signal handler runs, another process
goes on. Actions and moves are executable, and what they leave open is decided by a
choice. A run may be cut off anywhere, so that a statement about all runs is also one
about programs that never end.
-/

namespace Interruptible

variable {W C M E α β ρ : Type}

/-- An atomic action: its answer and the world it leaves, or `none` if it cannot happen
with this choice. -/
abbrev Action (W C ρ : Type) : Type := W → C → Option (ρ × W)

/-- Programs over worlds `W` with choices `C` and exceptions `E`. The program `spin`
stands for one that is still running. -/
inductive Prog (W C E α : Type) : Type 1
  | ret (a : α)
  | throw (e : E)
  | spin
  | act {ρ : Type} (a : Action W C ρ) (next : ρ → Prog W C E α)

namespace Prog

/-- A single action. -/
def lift (a : Action W C ρ) : Prog W C E ρ := .act a .ret

/-- One program after another. -/
def bind : Prog W C E α → (α → Prog W C E β) → Prog W C E β
  | .ret a, f => f a
  | .throw e, _ => .throw e
  | .spin, _ => .spin
  | .act a next, f => .act a fun r => (next r).bind f

instance : Monad (Prog W C E) where
  pure := .ret
  bind := bind

/-- Sequences are associative. -/
theorem bind_assoc {γ : Type} (p : Prog W C E α) (f : α → Prog W C E β) (g : β → Prog W C E γ) :
    p >>= f >>= g = p >>= fun a => f a >>= g := by
  induction p with
  | ret | throw | spin => rfl
  | act a next ih => exact congrArg (Prog.act a) (funext ih)

/-- Run a program and catch what it throws. -/
def attempt : Prog W C E α → Prog W C E (Except E α)
  | .ret a => .ret (.ok a)
  | .throw e => .ret (.error e)
  | .spin => .spin
  | .act a next => .act a fun r => (next r).attempt

/-- Return or throw a result that was caught. -/
def ofExcept : Except E α → Prog W C E α
  | .ok a => .ret a
  | .error e => .throw e

end Prog

section Runs

variable (env : W → M → Option W)

/-- One move of the world. -/
def Moves (w w' : W) : Prop := ∃ m, env w m = some w'

/-- The runs of a program: where they start, how they end (`none` when they are cut off)
and the world they leave. -/
def Runs : Prog W C E α → W → Option (Except E α) → W → Prop
  | .ret a, w, o, w' => Relation.ReflTransGen (Moves env) w w' ∧ (o = none ∨ o = some (.ok a))
  | .throw e, w, o, w' => Relation.ReflTransGen (Moves env) w w' ∧ (o = none ∨ o = some (.error e))
  | .spin, w, o, w' => Relation.ReflTransGen (Moves env) w w' ∧ o = none
  | .act a next, w, o, w' => ∃ w₁, Relation.ReflTransGen (Moves env) w w₁ ∧
      (o = none ∧ w' = w₁ ∨ ∃ c r w₂, a w₁ c = some (r, w₂) ∧ Runs (next r) w₂ o w')

/-- Every run from a world with `P` keeps `I` at any moment, and ends with `Q`. -/
def Ensures (I : W → Prop) (P : W → Prop) (p : Prog W C E α) (Q : Except E α → W → Prop) : Prop :=
  ∀ w o w', P w → Runs env p w o w' → I w' ∧ ∀ r, o = some r → Q r w'

/-- An assertion that the moves of the world keep, and that implies the invariant. -/
structure Kept (I P : W → Prop) : Prop where
  move : ∀ w m w', P w → env w m = some w' → P w'
  safe : ∀ w, P w → I w

end Runs

variable {env : W → M → Option W} {I P : W → Prop} {Q : Except E α → W → Prop}

/-- Any number of moves keep an assertion. -/
theorem Kept.moves (h : Kept env I P) {w w' : W} (hw : P w)
    (hmoves : Relation.ReflTransGen (Moves env) w w') : P w' := by
  induction hmoves with
  | refl => exact hw
  | tail _ hmove ih =>
    obtain ⟨m, hm⟩ := hmove
    exact h.move _ m _ ih hm

/-- Two assertions that the moves of the world keep. -/
theorem Kept.and (h : Kept env I P) {R : W → Prop}
    (hR : ∀ w m w', R w → env w m = some w' → R w') : Kept env I (fun w => P w ∧ R w) where
  move w m w' hw hmove := ⟨h.move w m w' hw.1 hmove, hR w m w' hw.2 hmove⟩
  safe w hw := h.safe w hw.1

/-- With more moves there are more runs. -/
theorem Runs.mono {M' : Type} {env' : W → M' → Option W}
    (hmoves : ∀ w w', Moves env w w' → Moves env' w w') {p : Prog W C E α} {w w' : W}
    {o : Option (Except E α)} (h : Runs env p w o w') : Runs env' p w o w' := by
  have hall : ∀ {w w'}, Relation.ReflTransGen (Moves env) w w' →
      Relation.ReflTransGen (Moves env') w w' :=
    fun hseq => Relation.ReflTransGen.mono hmoves _ _ hseq
  induction p generalizing w with
  | ret a => exact ⟨hall h.1, h.2⟩
  | throw e => exact ⟨hall h.1, h.2⟩
  | spin => exact ⟨hall h.1, h.2⟩
  | act a next ih =>
    obtain ⟨w₁, hseq, hstop | ⟨c, r, w₂, hact, hrest⟩⟩ := h
    · exact ⟨w₁, hall hseq, Or.inl hstop⟩
    · exact ⟨w₁, hall hseq, Or.inr ⟨c, r, w₂, hact, ih r hrest⟩⟩

/-- The rule for a program that returns. -/
theorem Ensures.ret (hP : Kept env I P) {a : α} (hQ : ∀ w, P w → Q (.ok a) w) :
    Ensures env I P (.ret a : Prog W C E α) Q := by
  rintro w o w' hw ⟨hmoves, ho⟩
  have hw' := hP.moves hw hmoves
  refine ⟨hP.safe w' hw', fun r hr => ?_⟩
  rcases ho with hnone | hsome
  · rw [hnone] at hr
    cases hr
  · rw [hsome] at hr
    obtain rfl := Option.some.inj hr
    exact hQ w' hw'

/-- The rule for a program that throws. -/
theorem Ensures.throw (hP : Kept env I P) {e : E} (hQ : ∀ w, P w → Q (.error e) w) :
    Ensures env I P (.throw e : Prog W C E α) Q := by
  rintro w o w' hw ⟨hmoves, ho⟩
  have hw' := hP.moves hw hmoves
  refine ⟨hP.safe w' hw', fun r hr => ?_⟩
  rcases ho with hnone | hsome
  · rw [hnone] at hr
    cases hr
  · rw [hsome] at hr
    obtain rfl := Option.some.inj hr
    exact hQ w' hw'

/-- The rule for a program that is still running. -/
theorem Ensures.spin (hP : Kept env I P) : Ensures env I P (.spin : Prog W C E α) Q := by
  rintro w o w' hw ⟨hmoves, ho⟩
  refine ⟨hP.safe w' (hP.moves hw hmoves), fun r hr => ?_⟩
  rw [ho] at hr
  cases hr

/-- The rule for an action. -/
theorem Ensures.act (hP : Kept env I P) {a : Action W C ρ} {next : ρ → Prog W C E α}
    (R : ρ → W → Prop) (hstep : ∀ w c r w', P w → a w c = some (r, w') → R r w')
    (hnext : ∀ r, Ensures env I (R r) (next r) Q) : Ensures env I P (.act a next) Q := by
  rintro w o w' hw ⟨w₁, hmoves, hrun⟩
  have hw₁ := hP.moves hw hmoves
  rcases hrun with ⟨hnone, heq⟩ | ⟨c, r, w₂, hact, hrun⟩
  · rw [heq]
    refine ⟨hP.safe w₁ hw₁, fun r hr => ?_⟩
    rw [hnone] at hr
    cases hr
  · exact hnext r w₂ o w' (hstep w₁ c r w₂ hw₁ hact) hrun

/-- The rule for an action that a program goes on from. -/
theorem Ensures.step (hP : Kept env I P) {a : Action W C ρ} {f : ρ → Prog W C E α}
    (R : ρ → W → Prop) (hstep : ∀ w c r w', P w → a w c = some (r, w') → R r w')
    (hnext : ∀ r, Ensures env I (R r) (f r) Q) : Ensures env I P (Prog.lift a >>= f) Q :=
  Ensures.act hP R hstep hnext

/-- The rule of consequence. -/
theorem Ensures.conseq {p : Prog W C E α} {R : W → Prop} {S : Except E α → W → Prop}
    (h : Ensures env I R p S) (hP : ∀ w, P w → R w) (hQ : ∀ r w, S r w → Q r w) :
    Ensures env I P p Q := by
  intro w o w' hw hrun
  obtain ⟨hI, hr⟩ := h w o w' (hP w hw) hrun
  exact ⟨hI, fun r ho => hQ r w' (hr r ho)⟩

/-- A weaker invariant. -/
theorem Ensures.weaken {J : W → Prop} {p : Prog W C E α} (h : Ensures env I P p Q)
    (hI : ∀ w, I w → J w) : Ensures env J P p Q :=
  fun w o w' hw hrun => (h w o w' hw hrun).imp_left (hI w')

/-- What two statements say about the same runs. -/
theorem Ensures.and {J R : W → Prop} {p : Prog W C E α} {S : Except E α → W → Prop}
    (hI : Ensures env I P p Q) (hJ : Ensures env J R p S) :
    Ensures env (fun w => I w ∧ J w) (fun w => P w ∧ R w) p (fun r w => Q r w ∧ S r w) := by
  intro w o w' hw hrun
  obtain ⟨hi, hq⟩ := hI w o w' hw.1 hrun
  obtain ⟨hj, hs⟩ := hJ w o w' hw.2 hrun
  exact ⟨⟨hi, hj⟩, fun r hr => ⟨hq r hr, hs r hr⟩⟩

/-- The same, with one invariant and one start. -/
theorem Ensures.both {p : Prog W C E α} {R : Except E α → W → Prop} (hQ : Ensures env I P p Q)
    (hR : Ensures env I P p R) : Ensures env I P p (fun r w => Q r w ∧ R r w) :=
  ((hQ.and hR).weaken fun _ h => h.1).conseq (fun _ h => ⟨h, h⟩) fun _ _ h => h

/-- A fact that does not depend on the world can be assumed. -/
theorem Ensures.of_fact {φ : Prop} {p : Prog W C E α} (h : φ → Ensures env I P p Q) :
    Ensures env I (fun w => φ ∧ P w) p Q :=
  fun w o w' hw hrun => h hw.1 w o w' hw.2 hrun

/-- A value that the assertion only says to exist can be taken. -/
theorem Ensures.of_exists {γ : Type} {R : γ → W → Prop} {p : Prog W C E α}
    (h : ∀ x, Ensures env I (R x) p Q) : Ensures env I (fun w => ∃ x, R x w) p Q := by
  rintro w o w' ⟨x, hx⟩ hrun
  exact h x w o w' hx hrun

/-- The runs of a sequence are runs of its first part, followed by runs of the second one
where the first one has returned. -/
theorem runs_bind {p : Prog W C E α} {f : α → Prog W C E β} {w w' : W}
    {o : Option (Except E β)} (h : Runs env (p.bind f) w o w') :
    (o = none ∧ Runs env p w none w') ∨
      (∃ e, o = some (.error e) ∧ Runs env p w (some (.error e)) w') ∨
      ∃ a w₁, Runs env p w (some (.ok a)) w₁ ∧ Runs env (f a) w₁ o w' := by
  induction p generalizing w with
  | ret a => exact Or.inr (Or.inr ⟨a, w, ⟨.refl, Or.inr rfl⟩, h⟩)
  | throw e =>
    obtain ⟨hmoves, hnone | herror⟩ := h
    · exact Or.inl ⟨hnone, hmoves, Or.inl rfl⟩
    · exact Or.inr (Or.inl ⟨e, herror, hmoves, Or.inr rfl⟩)
  | spin => exact Or.inl ⟨h.2, h.1, rfl⟩
  | act a next ih =>
    obtain ⟨w₁, hmoves, ⟨hnone, heq⟩ | ⟨c, r, w₂, hact, hrun⟩⟩ := h
    · exact Or.inl ⟨hnone, w₁, hmoves, Or.inl ⟨rfl, heq⟩⟩
    · rcases ih r hrun with ⟨hnone, hp⟩ | ⟨e, herror, hp⟩ | ⟨b, w₃, hp, hf⟩
      · exact Or.inl ⟨hnone, w₁, hmoves, Or.inr ⟨c, r, w₂, hact, hp⟩⟩
      · exact Or.inr (Or.inl ⟨e, herror, w₁, hmoves, Or.inr ⟨c, r, w₂, hact, hp⟩⟩)
      · exact Or.inr (Or.inr ⟨b, w₃, ⟨w₁, hmoves, Or.inr ⟨c, r, w₂, hact, hp⟩⟩, hf⟩)

/-- The rule for a sequence. -/
theorem Ensures.bind {p : Prog W C E α} {f : α → Prog W C E β} {R : Except E α → W → Prop}
    {S : Except E β → W → Prop} (hp : Ensures env I P p R)
    (hf : ∀ a, Ensures env I (R (.ok a)) (f a) S) (he : ∀ e w, R (.error e) w → S (.error e) w) :
    Ensures env I P (p >>= f) S := by
  intro w o w' hw hrun
  rcases runs_bind hrun with ⟨hnone, hfirst⟩ | ⟨e, herror, hfirst⟩ | ⟨a, w₁, hfirst, hrest⟩
  · refine ⟨(hp w none w' hw hfirst).1, fun r hr => ?_⟩
    rw [hnone] at hr
    cases hr
  · obtain ⟨hI, hr⟩ := hp w _ w' hw hfirst
    refine ⟨hI, fun r ho => ?_⟩
    rw [herror] at ho
    obtain rfl := Option.some.inj ho
    exact he e w' (hr _ rfl)
  · exact hf a w₁ o w' ((hp w _ w₁ hw hfirst).2 _ rfl) hrest

/-- What a caught program did is what the program did. -/
theorem runs_attempt {p : Prog W C E α} {w w' : W} {o : Option (Except E (Except E α))}
    (h : Runs env p.attempt w o w') :
    (o = none ∧ Runs env p w none w') ∨ ∃ r, o = some (.ok r) ∧ Runs env p w (some r) w' := by
  induction p generalizing w with
  | ret a =>
    obtain ⟨hmoves, hnone | hsome⟩ := h
    · exact Or.inl ⟨hnone, hmoves, Or.inl rfl⟩
    · exact Or.inr ⟨_, hsome, hmoves, Or.inr rfl⟩
  | throw e =>
    obtain ⟨hmoves, hnone | hsome⟩ := h
    · exact Or.inl ⟨hnone, hmoves, Or.inl rfl⟩
    · exact Or.inr ⟨_, hsome, hmoves, Or.inr rfl⟩
  | spin => exact Or.inl ⟨h.2, h.1, rfl⟩
  | act a next ih =>
    obtain ⟨w₁, hmoves, ⟨hnone, heq⟩ | ⟨c, r, w₂, hact, hrun⟩⟩ := h
    · exact Or.inl ⟨hnone, w₁, hmoves, Or.inl ⟨rfl, heq⟩⟩
    · rcases ih r hrun with ⟨hnone, hp⟩ | ⟨result, hsome, hp⟩
      · exact Or.inl ⟨hnone, w₁, hmoves, Or.inr ⟨c, r, w₂, hact, hp⟩⟩
      · exact Or.inr ⟨result, hsome, w₁, hmoves, Or.inr ⟨c, r, w₂, hact, hp⟩⟩

/-- The rule for a caught program. -/
theorem Ensures.attempt {p : Prog W C E α} {f : Except E α → Prog W C E β}
    {R : Except E α → W → Prop} {S : Except E β → W → Prop} (hp : Ensures env I P p R)
    (hf : ∀ r, Ensures env I (R r) (f r) S) : Ensures env I P (p.attempt >>= f) S := by
  refine Ensures.bind (fun w o w' hw hrun => ?_)
    (R := fun r w => ∃ result, r = .ok result ∧ R result w) (fun result w o w' hw hrun => ?_) ?_
  · rcases runs_attempt hrun with ⟨hnone, hfirst⟩ | ⟨r, hsome, hfirst⟩
    · refine ⟨(hp w none w' hw hfirst).1, fun r hr => ?_⟩
      rw [hnone] at hr
      cases hr
    · obtain ⟨hI, hr⟩ := hp w _ w' hw hfirst
      refine ⟨hI, fun result hresult => ⟨r, ?_, hr r rfl⟩⟩
      rw [hsome] at hresult
      exact (Option.some.inj hresult).symm
  · obtain ⟨r, heq, hR⟩ := hw
    obtain rfl := Except.ok.inj heq
    exact hf result w o w' hR hrun
  · rintro e w ⟨r, heq, _⟩
    cases heq

/-- Every action of a program has a property. -/
def Prog.Each (φ : ∀ {ρ : Type}, Action W C ρ → Prop) : Prog W C E α → Prop
  | .ret _ => True
  | .throw _ => True
  | .spin => True
  | .act a next => φ a ∧ ∀ r, (next r).Each φ

variable {φ : ∀ {ρ : Type}, Action W C ρ → Prop}

/-- An action at the beginning. -/
theorem Prog.Each.step {a : Action W C ρ} {f : ρ → Prog W C E α} (ha : φ a)
    (hf : ∀ r, (f r).Each φ) : Prog.Each φ (Prog.lift a >>= f) := ⟨ha, hf⟩

/-- A single action. -/
theorem Prog.Each.lift {a : Action W C ρ} (ha : φ a) :
    Prog.Each φ (Prog.lift a : Prog W C E ρ) := ⟨ha, fun _ => trivial⟩

/-- One program after another. -/
theorem Prog.Each.bind {p : Prog W C E α} {f : α → Prog W C E β} (hp : p.Each φ)
    (hf : ∀ a, (f a).Each φ) : Prog.Each φ (p >>= f) := by
  induction p with
  | ret a => exact hf a
  | throw e => trivial
  | spin => trivial
  | act a next ih => exact ⟨hp.1, fun r => ih r (hp.2 r)⟩

/-- A caught program. -/
theorem Prog.Each.attempt {p : Prog W C E α} (hp : p.Each φ) : p.attempt.Each φ := by
  induction p with
  | ret a => trivial
  | throw e => trivial
  | spin => trivial
  | act a next ih => exact ⟨hp.1, fun r => ih r (hp.2 r)⟩

/-- Another property that follows. -/
theorem Prog.Each.mono {ψ : ∀ {ρ : Type}, Action W C ρ → Prop} {p : Prog W C E α} (hp : p.Each φ)
    (h : ∀ {ρ : Type} (a : Action W C ρ), φ a → ψ a) : p.Each ψ := by
  induction p with
  | ret a => trivial
  | throw e => trivial
  | spin => trivial
  | act a next ih => exact ⟨h a hp.1, fun r => ih r (hp.2 r)⟩

/-- What each of the actions keeps is kept by the program. -/
theorem Ensures.each (hP : Kept env I P) {p : Prog W C E α}
    (hp : p.Each fun a => ∀ w c r w', P w → a w c = some (r, w') → P w') :
    Ensures env I P p (fun _ => P) := by
  induction p with
  | ret a => exact .ret hP fun _ h => h
  | throw e => exact .throw hP fun _ h => h
  | spin => exact .spin hP
  | act a next ih => exact .act hP (fun _ => P) hp.1 fun r => ih r (hp.2 r)

/-- The frame rule: what all actions of a program keep can be added on both sides. -/
theorem Ensures.frame {R : W → Prop} {p : Prog W C E α} (hp : Ensures env I P p Q)
    (hmove : ∀ w m w', R w → env w m = some w' → R w')
    (hact : p.Each fun a => ∀ w c r w', R w → a w c = some (r, w') → R w') :
    Ensures env I (fun w => P w ∧ R w) p (fun r w => Q r w ∧ R w) := by
  intro w o w' hw hrun
  have hkept : Kept env (fun _ => True) R := ⟨hmove, fun _ _ => trivial⟩
  obtain ⟨hI, hQ⟩ := hp w o w' hw.1 hrun
  exact ⟨hI, fun r hr => ⟨hQ r hr, (Ensures.each hkept hact w o w' hw.2 hrun).2 r hr⟩⟩

/-- A step of a script: a move of the world, or an action with its choice. -/
inductive Cue (M C : Type)
  | move (m : M)
  | act (c : C)

/-- Follow a script. The result is `none` if a step of it is not possible. -/
def drive (env : W → M → Option W) :
    List (Cue M C) → Prog W C E α → W → Option (Option (Except E α) × W)
  | [], .ret a, w => some (some (.ok a), w)
  | [], .throw e, w => some (some (.error e), w)
  | [], _, w => some (none, w)
  | .move m :: script, p, w =>
    match env w m with
    | none => none
    | some w' => drive env script p w'
  | .act c :: script, .act a next, w =>
    match a w c with
    | none => none
    | some (r, w') => drive env script (next r) w'
  | .act _ :: _, _, _ => none

/-- A run may begin with a move. -/
theorem runs_of_move {p : Prog W C E α} {w w₁ w' : W} {m : M} {o : Option (Except E α)}
    (hmove : env w m = some w₁) (h : Runs env p w₁ o w') : Runs env p w o w' := by
  cases p with
  | ret a => exact ⟨.head ⟨m, hmove⟩ h.1, h.2⟩
  | throw e => exact ⟨.head ⟨m, hmove⟩ h.1, h.2⟩
  | spin => exact ⟨.head ⟨m, hmove⟩ h.1, h.2⟩
  | act a next =>
    obtain ⟨w₂, hmoves, hrest⟩ := h
    exact ⟨w₂, .head ⟨m, hmove⟩ hmoves, hrest⟩

/-- What a script does is a run. -/
theorem runs_of_drive {script : List (Cue M C)} {p : Prog W C E α} {w w' : W}
    {o : Option (Except E α)} (h : drive env script p w = some (o, w')) : Runs env p w o w' := by
  induction script generalizing p w with
  | nil =>
    cases p <;> obtain ⟨rfl, rfl⟩ := Prod.mk.inj (Option.some.inj h)
    · exact ⟨.refl, Or.inr rfl⟩
    · exact ⟨.refl, Or.inr rfl⟩
    · exact ⟨.refl, rfl⟩
    · exact ⟨w, .refl, Or.inl ⟨rfl, rfl⟩⟩
  | cons cue script ih =>
    cases cue with
    | move m =>
      rw [drive] at h
      cases hmove : env w m with
      | none => simp [hmove] at h
      | some w₁ =>
        simp only [hmove] at h
        exact runs_of_move hmove (ih h)
    | act c =>
      cases p with
      | act a next =>
        rw [drive] at h
        cases hact : a w c with
        | none => simp [hact] at h
        | some answer =>
          obtain ⟨r, w₁⟩ := answer
          simp only [hact] at h
          exact ⟨w, .refl, Or.inr ⟨c, r, w₁, hact, ih h⟩⟩
      | ret a => simp [drive] at h
      | throw e => simp [drive] at h
      | spin => simp [drive] at h

/-- A script shows that there is a run with a given end. -/
theorem exists_run_of_drive {γ : Type} (script : List (Cue M C)) {p : Prog W C E α} {w : W}
    {o : Option (Except E α)} (observe : W → γ) {seen : γ}
    (h : (drive env script p w).map (fun last => (last.1, observe last.2)) = some (o, seen)) :
    ∃ w', Runs env p w o w' ∧ observe w' = seen := by
  obtain ⟨⟨o', w'⟩, hdrive, heq⟩ := Option.map_eq_some_iff.mp h
  obtain ⟨rfl, hseen⟩ := Prod.mk.inj heq
  exact ⟨w', runs_of_drive hdrive, hseen⟩

/-- Two scripts show that there is a run of one program, and then a run of another one. -/
theorem exists_run_after_drive {γ : Type} (script script' : List (Cue M C)) {p : Prog W C E α}
    {p' : Prog W C E β} {w : W} {o : Option (Except E α)} {o' : Option (Except E β)}
    (observe : W → W → γ) {seen : γ}
    (h : ((drive env script p w).bind fun mid => (drive env script' p' mid.2).map fun last =>
      (mid.1, last.1, observe mid.2 last.2)) = some (o, o', seen)) :
    ∃ w₁ w', Runs env p w o w₁ ∧ Runs env p' w₁ o' w' ∧ observe w₁ w' = seen := by
  obtain ⟨⟨o₁, w₁⟩, hdrive, hrest⟩ := Option.bind_eq_some_iff.mp h
  obtain ⟨⟨o₂, w'⟩, hdrive', heq⟩ := Option.map_eq_some_iff.mp hrest
  simp only [Prod.mk.injEq] at heq
  obtain ⟨rfl, rfl, hseen⟩ := heq
  exact ⟨w₁, w', runs_of_drive hdrive, runs_of_drive hdrive', hseen⟩

end Interruptible
