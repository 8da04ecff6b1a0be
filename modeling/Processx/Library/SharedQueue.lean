import Mathlib.Data.List.Basic
import Mathlib.Data.Nat.Notation

/-!
# Machines that share a queue

Every machine acts on its own state and may post packets, which wait in one queue for all
machines. Whoever takes the first packet handles it for the machine it belongs to. What happens
to one machine and its own packets is then a run of that machine alone: a fact about single
moves of single machines holds throughout the runs of all of them.
-/

namespace SharedQueue

variable {K S A H P : Type} [DecidableEq K]

/-- A machine with states `S`, actions `A` and packets `P`, which are handled in the ways `H`. -/
structure Machine (S A H P : Type) where
  act : A → S → S × List P
  handle : H → P → S → S

/-- What can happen to a machine. -/
inductive Move (A H : Type)
  | act (a : A)
  | take (h : H)

/-- A machine and its own packets. -/
structure Box (S P : Type) where
  state : S
  waiting : List P

/-- One move of a single machine. -/
def Box.step (m : Machine S A H P) (b : Box S P) : Move A H → Box S P
  | .act a => ⟨(m.act a b.state).1, b.waiting ++ (m.act a b.state).2⟩
  | .take h =>
    match b.waiting with
    | [] => b
    | p :: rest => ⟨m.handle h p b.state, rest⟩

/-- All machines and the queue. -/
structure System (K S P : Type) where
  state : K → S
  queue : List (K × P)

/-- What can happen: a machine acts, or the first packet is taken. -/
inductive Event (K A H : Type)
  | act (k : K) (a : A)
  | take (h : H)

namespace System

/-- Change the state of one machine. -/
def set (s : System K S P) (k : K) (state : S) : System K S P :=
  { s with state := fun j => if j = k then state else s.state j }

/-- One event. -/
def step (m : Machine S A H P) (s : System K S P) : Event K A H → System K S P
  | .act k a =>
    { s.set k (m.act a (s.state k)).1 with
      queue := s.queue ++ (m.act a (s.state k)).2.map fun p => (k, p) }
  | .take h =>
    match s.queue with
    | [] => s
    | (k, p) :: rest => { s.set k (m.handle h p (s.state k)) with queue := rest }

/-- A sequence of events. -/
def run (m : Machine S A H P) (s : System K S P) (events : List (Event K A H)) : System K S P :=
  events.foldl (step m) s

/-- A run in two parts is one part after the other. -/
theorem run_append (m : Machine S A H P) (s : System K S P) (events later : List (Event K A H)) :
    s.run m (events ++ later) = (s.run m events).run m later :=
  List.foldl_append

/-- One machine with its own packets. -/
def box (s : System K S P) (k : K) : Box S P :=
  ⟨s.state k, (s.queue.filter fun e => e.1 = k).map Prod.snd⟩

/-- What an event is for one machine. -/
def move (s : System K S P) (k : K) : Event K A H → Option (Move A H)
  | .act j a => if j = k then some (.act a) else none
  | .take h => if s.queue.head?.map Prod.fst = some k then some (.take h) else none

/-- An event moves a machine and its packets, or leaves them alone. -/
theorem box_step (m : Machine S A H P) (s : System K S P) (k : K) (e : Event K A H) :
    (s.step m e).box k = ((s.move k e).elim (s.box k) fun mv => (s.box k).step m mv) := by
  cases e with
  | act j a =>
    by_cases hj : j = k
    · subst hj
      simp [step, move, box, set, Box.step, List.filter_map, Function.comp_def]
    · simp [step, move, box, set, hj, Ne.symm hj, List.filter_map, Function.comp_def]
  | take h =>
    cases hqueue : s.queue with
    | nil => simp [step, move, box, hqueue]
    | cons entry rest =>
      obtain ⟨j, p⟩ := entry
      by_cases hj : j = k
      · subst hj
        simp [step, move, box, set, Box.step, hqueue]
      · simp [step, move, box, set, hqueue, hj, Ne.symm hj]

/-- The state of one machine, and the whole queue. -/
def At (s : System K S P) (k : K) (state : S) (queue : List (K × P)) : Prop :=
  s.state k = state ∧ s.queue = queue

/-- What an action of a machine does to its state and to the queue. -/
theorem At.act {s : System K S P} {k : K} {state : S} {queue : List (K × P)}
    (h : s.At k state queue) (m : Machine S A H P) (a : A) {state' : S} {posted : List P}
    (hact : m.act a state = (state', posted)) :
    (s.step m (.act k a)).At k state' (queue ++ posted.map fun p => (k, p)) := by
  obtain ⟨rfl, rfl⟩ := h
  simp [At, step, set, hact]

/-- What taking its packet from the front of the queue does to a machine. -/
theorem At.take {s : System K S P} {k : K} {state : S} {rest : List (K × P)} {p : P}
    (hs : s.At k state ((k, p) :: rest)) (m : Machine S A H P) (h : H) {state' : S}
    (hhandle : m.handle h p state = state') : (s.step m (.take h)).At k state' rest := by
  obtain ⟨rfl, hqueue⟩ := hs
  simp [At, step, set, hqueue, hhandle]

/-- A property of moves, for every machine that an event moves. -/
def Each (C : Box S P → Move A H → Prop) (s : System K S P) (e : Event K A H) : Prop :=
  ∀ k mv, s.move k e = some mv → C (s.box k) mv

/-- A property of moves, for the moves of one machine. -/
def Of (k : K) (C : Box S P → Move A H → Prop) (s : System K S P) (e : Event K A H) : Prop :=
  ∀ mv ∈ s.move k e, C (s.box k) mv

instance {k : K} {C : Box S P → Move A H → Prop} [∀ b mv, Decidable (C b mv)] (s : System K S P)
    (e : Event K A H) : Decidable (Of k C s e) :=
  inferInstanceAs (Decidable (∀ mv ∈ s.move k e, C (s.box k) mv))

/-- A property of events, at every event of a run. -/
def Along (m : Machine S A H P) (C : System K S P → Event K A H → Prop) :
    System K S P → List (Event K A H) → Prop
  | _, [] => True
  | s, e :: events => C s e ∧ Along m C (s.step m e) events

/-- For an action, the property concerns the machine that acts. -/
theorem each_act {C : Box S P → Move A H → Prop} {s : System K S P} {k : K} {a : A} :
    Each C s (.act k a) ↔ C (s.box k) (.act a) := by
  constructor
  · exact fun h => h k (.act a) (if_pos rfl)
  · rintro h j mv hmove
    by_cases hj : k = j
    · subst hj
      obtain rfl : Move.act a = mv := by simpa [move] using hmove
      exact h
    · simp [move, hj] at hmove

/-- For a packet, it concerns the machine whose packet is in front, if there is one. -/
theorem each_take {C : Box S P → Move A H → Prop} {s : System K S P} {h : H} :
    Each C s (.take h) ↔ ∀ entry ∈ s.queue.head?, C (s.box entry.1) (.take h) := by
  constructor
  · exact fun heach entry hentry => heach entry.1 (.take h) (if_pos (by rw [hentry]; rfl))
  · rintro hhead j mv hmove
    by_cases hj : s.queue.head?.map Prod.fst = some j
    · obtain ⟨entry, hentry, rfl⟩ := Option.map_eq_some_iff.mp hj
      obtain rfl : Move.take h = mv := by simpa [move, hj] using hmove
      exact hhead entry hentry
    · simp [move, hj] at hmove

instance {C : Box S P → Move A H → Prop} [∀ b mv, Decidable (C b mv)] (s : System K S P)
    (e : Event K A H) : Decidable (Each C s e) :=
  match e with
  | .act _ _ => decidable_of_iff _ each_act.symm
  | .take _ => decidable_of_iff _ each_take.symm

instance {m : Machine S A H P} {C : System K S P → Event K A H → Prop}
    [∀ s e, Decidable (C s e)] : ∀ (s : System K S P) (events : List (Event K A H)),
    Decidable (Along m C s events)
  | _, [] => isTrue trivial
  | s, e :: events =>
    have : Decidable (Along m C (s.step m e) events) := instDecidableAlong _ events
    inferInstanceAs (Decidable (C s e ∧ Along m C (s.step m e) events))

/-- Two properties throughout the moves of one machine. -/
theorem Along.and {m : Machine S A H P} {k : K} {C D : Box S P → Move A H → Prop}
    {events : List (Event K A H)} {s : System K S P} (h : Along m (Of k C) s events)
    (h' : Along m (Of k D) s events) : Along m (Of k fun b mv => C b mv ∧ D b mv) s events := by
  induction events generalizing s with
  | nil => trivial
  | cons e events ih =>
    exact ⟨fun mv hmove => ⟨h.1 mv hmove, h'.1 mv hmove⟩, ih h.2 h'.2⟩

/-- A property throughout a run holds at its last event. -/
theorem Along.last {m : Machine S A H P} {C : System K S P → Event K A H → Prop}
    {s : System K S P} {events : List (Event K A H)} {e : Event K A H}
    (h : Along m C s (events ++ [e])) : C (s.run m events) e := by
  induction events generalizing s with
  | nil => exact h.1
  | cons e' events ih => exact ih h.2

/-- What every move of a machine keeps holds of all machines after an event. -/
theorem keeps_step {m : Machine S A H P} {I : Box S P → Prop} {s : System K S P}
    {e : Event K A H} (hs : ∀ k, I (s.box k))
    (hstep : ∀ k mv, s.move k e = some mv → I ((s.box k).step m mv)) (k : K) :
    I ((s.step m e).box k) := by
  rw [box_step]
  cases hmove : s.move k e with
  | none => exact hs k
  | some mv => exact hstep k mv hmove

/-- What every move of a machine keeps holds of all machines after a run. -/
theorem keeps_run {m : Machine S A H P} {I : Box S P → Prop}
    (hstep : ∀ b mv, I b → I (b.step m mv)) (events : List (Event K A H)) {s : System K S P}
    (hs : ∀ k, I (s.box k)) : ∀ k, I ((s.run m events).box k) := by
  induction events generalizing s with
  | nil => exact hs
  | cons e events ih => exact ih (keeps_step hs fun k mv _ => hstep _ mv (hs k))

/-- If the moves with `C` keep an invariant and have the property `Q`, every run whose moves
have `C` has `Q` throughout. -/
theorem Along.of_each {m : Machine S A H P} {I : Box S P → Prop} {C Q : Box S P → Move A H → Prop}
    (hstep : ∀ b mv, I b → C b mv → Q b mv ∧ I (b.step m mv)) {events : List (Event K A H)}
    {s : System K S P} (hs : ∀ k, I (s.box k)) (h : Along m (Each C) s events) :
    Along m (Each Q) s events := by
  induction events generalizing s with
  | nil => trivial
  | cons e events ih =>
    obtain ⟨hfirst, hrest⟩ := h
    refine ⟨fun k mv hmove => (hstep _ mv (hs k) (hfirst k mv hmove)).1, ih ?_ hrest⟩
    exact keeps_step hs fun k mv hmove => (hstep _ mv (hs k) (hfirst k mv hmove)).2

/-- If `C` and `Q` are the same for the moves from an invariant, and these moves keep the
invariant, a run has `Q` throughout exactly if it has `C` throughout. -/
theorem along_iff_of_each {m : Machine S A H P} {I : Box S P → Prop}
    {C Q : Box S P → Move A H → Prop}
    (hstep : ∀ b mv, I b → (Q b mv ↔ C b mv) ∧ (C b mv → I (b.step m mv)))
    (events : List (Event K A H)) {s : System K S P} (hs : ∀ k, I (s.box k)) :
    Along m (Each Q) s events ↔ Along m (Each C) s events := by
  constructor
  · refine Along.of_each (fun b mv hb hq => ?_) hs
    have hc := (hstep b mv hb).1.mp hq
    exact ⟨hc, (hstep b mv hb).2 hc⟩
  · exact Along.of_each (fun b mv hb hc => ⟨(hstep b mv hb).1.mpr hc, (hstep b mv hb).2 hc⟩) hs

/-- All machines have a property in every state of a run exactly if every move of the run leads to
it. -/
theorem along_iff_reached {m : Machine S A H P} {I : Box S P → Prop} {events : List (Event K A H)}
    {s : System K S P} (hs : ∀ k, I (s.box k)) :
    Along m (Each fun b mv => I (b.step m mv)) s events ↔
      ∀ earlier, earlier <+: events → ∀ k, I ((s.run m earlier).box k) := by
  induction events generalizing s with
  | nil =>
    refine iff_of_true trivial fun earlier hearlier => ?_
    rw [List.prefix_nil.mp hearlier]
    exact hs
  | cons e events ih =>
    constructor
    · rintro ⟨hfirst, hrest⟩ earlier hearlier
      cases earlier with
      | nil => exact hs
      | cons e' earlier =>
        obtain ⟨rfl, hlater⟩ := List.cons_prefix_cons.mp hearlier
        exact (ih (keeps_step hs hfirst)).mp hrest earlier hlater
    · intro hreached
      have hnext : ∀ k, I ((s.step m e).box k) := hreached [e] ⟨events, rfl⟩
      refine ⟨fun k mv hmove => ?_, (ih hnext).mpr fun earlier hearlier => ?_⟩
      · have hk := hnext k
        rwa [box_step, hmove] at hk
      · exact hreached (e :: earlier) (List.cons_prefix_cons.mpr ⟨rfl, hearlier⟩)

/-- What is noted of the moves of one machine throughout a run. -/
def note {T : Type} (m : Machine S A H P) (f : T → Box S P → Move A H → T) (k : K) :
    T → System K S P → List (Event K A H) → T
  | t, _, [] => t
  | t, s, e :: events =>
    note m f k ((s.move k e).elim t (f t (s.box k))) (s.step m e) events

/-- What is noted along a run in two parts is noted along one part after the other. -/
theorem note_append {T : Type} (m : Machine S A H P) (f : T → Box S P → Move A H → T) (k : K)
    (t : T) (s : System K S P) (events later : List (Event K A H)) :
    note m f k t s (events ++ later) =
      note m f k (note m f k t s events) (s.run m events) later := by
  induction events generalizing t s with
  | nil => rfl
  | cons e events ih => exact ih _ _

/-- A property holds along a run in two parts when it holds along both. -/
theorem along_append {m : Machine S A H P} {C : System K S P → Event K A H → Prop}
    {s : System K S P} {events later : List (Event K A H)} :
    Along m C s (events ++ later) ↔ Along m C s events ∧ Along m C (s.run m events) later := by
  induction events generalizing s with
  | nil => exact (and_iff_right trivial).symm
  | cons e events ih => exact (and_congr_right fun _ => ih).trans and_assoc.symm

/-- If the moves with `C` keep a machine in step with the note, so does every run in which the
moves of this machine have `C`. -/
theorem Along.noted {T : Type} {m : Machine S A H P} {f : T → Box S P → Move A H → T} {k : K}
    {J : T → Box S P → Prop} {C : Box S P → Move A H → Prop}
    (hstep : ∀ t b mv, J t b → C b mv → J (f t b mv) (b.step m mv)) {events : List (Event K A H)}
    {t : T} {s : System K S P} (hs : J t (s.box k)) (h : Along m (Of k C) s events) :
    J (note m f k t s events) ((s.run m events).box k) := by
  induction events generalizing t s with
  | nil => exact hs
  | cons e events ih =>
    obtain ⟨hfirst, hrest⟩ := h
    refine ih ?_ hrest
    rw [box_step]
    cases hmove : s.move k e with
    | none => exact hs
    | some mv => exact hstep t _ mv hs (hfirst mv hmove)

end System

end SharedQueue
