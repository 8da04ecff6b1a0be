import Mathlib.Algebra.BigOperators.Group.List.Basic
import Mathlib.Algebra.GroupWithZero.Nat
import Mathlib.Data.List.Forall2
import Processx.Win.Calls
import Processx.Connection.PollCount

/-!
# Polls with curl on Windows

`processx_c_connection_poll()` with fd sets of curl, which are given to `select()` while another
thread waits for a packet. After `select()` each set has the sockets that are ready; while the code
looks for them it puts back those that are not. A pollable is counted each time that an event is
stored for it.
-/

namespace Processx.Win.Select

open SharedQueue

variable {σ : Type}

/-- A pollable: a connection, or `NULL` for one, or the three vectors of sockets of curl. -/
inductive Target
  | connection (el : Pollable)
  | nopipe
  | curl (reads writes exceptions : List ℤ)

/-- The connection of a pollable. -/
def Target.object : Target → Option ℕ
  | .connection el => some el.object
  | _ => none

/-- The three sets of `select()`. -/
structure FdSets where
  reads : List ℤ := []
  writes : List ℤ := []
  exceptions : List ℤ := []

/-- A pollable with the event of the first loop, and the event that is stored for it. -/
structure Entry where
  target : Target
  code : PollEvent
  event : PollEvent

/-- The first loop of `processx_c_connection_poll()`. -/
def prePollAll (ic : Riconv σ) : List Target → World σ → Except String (List Entry) × World σ
  | [], w => (.ok [], w)
  | .connection el :: els, w =>
    let w := background ic el.arrivals w
    let after := w.step (machine ic) (.act el.object (.prePoll el.start))
    match (prePollFuncConnection ic el.start (w.state el.object)).1 with
    | .error msg => (.error msg, after)
    | .ok found =>
      match prePollAll ic els after with
      | (.error msg, w) => (.error msg, w)
      | (.ok entries, w) =>
        (.ok (⟨.connection el, found, if found = .handle then .silent else found⟩ :: entries), w)
  | .nopipe :: els, w =>
    match prePollAll ic els w with
    | (.error msg, w) => (.error msg, w)
    | (.ok entries, w) => (.ok (⟨.nopipe, .nopipe, .nopipe⟩ :: entries), w)
  | .curl reads writes exceptions :: els, w =>
    match prePollAll ic els w with
    | (.error msg, w) => (.error msg, w)
    | (.ok entries, w) =>
      (.ok (⟨.curl reads writes exceptions, .select, .silent⟩ :: entries), w)

/-- The number of sockets of an entry. -/
def Entry.sockets (el : Entry) : ℕ :=
  match el.target with
  | .curl reads writes exceptions => reads.length + writes.length + exceptions.length
  | _ => 0

/-- `FD_SETSIZE` -/
def fdSetSize : ℕ := 32767

/-- `FD_SET()`. A set that is full stays as it is. -/
def fdSet (fd : ℤ) (set : List ℤ) : List ℤ :=
  if fd ∈ set ∨ fdSetSize ≤ set.length then set else fd :: set

/-- Is one of the sockets in the set? Each that is looked for is put back. -/
def scanSet : List ℤ → List ℤ → Bool × List ℤ
  | [], set => (false, set)
  | fd :: fds, set =>
    let (has, set') := scanSet fds (fdSet fd set)
    (decide (fd ∈ set) || has, set')

/-- The sockets of an entry. -/
def Entry.scan (el : Entry) (sets : FdSets) : Bool × FdSets :=
  match el.target with
  | .curl reads writes exceptions =>
    let (hasReads, inReads) := scanSet reads sets.reads
    let (hasWrites, inWrites) := scanSet writes sets.writes
    let (hasExceptions, inExceptions) := scanSet exceptions sets.exceptions
    (hasReads || hasWrites || hasExceptions, ⟨inReads, inWrites, inExceptions⟩)
  | _ => (false, sets)

/-- "See if there was any data from the curl sockets" -/
def scanAll : List Entry → FdSets → ℕ → List Entry × ℕ
  | [], _, hasdata => ([], hasdata)
  | el :: els, sets, hasdata =>
    if el.code = .select then
      let (has, sets) := el.scan sets
      let (els, hasdata) := scanAll els sets (if has then hasdata + 1 else hasdata)
      (if has then { el with event := .event } :: els else el :: els, hasdata)
    else
      let (els, hasdata) := scanAll els sets hasdata
      (el :: els, hasdata)

/-- One `GetQueuedCompletionStatus()`, which may return a packet that was posted to wake it up, and
the sets that `select()` leaves. -/
structure Round extends Status where
  woken : Bool := false
  sets : FdSets := {}

/-- What comes out of the queue. -/
def Round.packet (ic : Riconv σ) (round : Round) (w : World σ) : Option (ℕ × Completion) :=
  if round.woken then none else (background ic round.arrivals w).queue.head?

/-- Is the connection polled, at its own place? -/
def isPolled (entries : List Entry) (pollIdx : ℕ → ℕ) (con : ℕ) : Bool :=
  decide ((entries[pollIdx con]?).bind (·.target.object) = some con)

/-- "See if there was any data from the IOCP" -/
def takePacket (ic : Riconv σ) (pollIdx : ℕ → ℕ) (round : Round) (entries : List Entry)
    (hasdata : ℕ) (w : World σ) : Except String (List Entry × ℕ) × World σ :=
  match round.packet ic w with
  | none =>
    (if round.error ∧ ¬ round.woken then .error "Cannot poll" else .ok (entries, hasdata),
      background ic round.arrivals w)
  | some (con, overlapped) =>
    let w := background ic round.arrivals w
    let polled := isPolled entries pollIdx con
    let after := w.step (machine ic) (.take (.poll polled))
    match (pollPacket ic polled overlapped.bytes.length (w.state con)).1 with
    | none => (.ok (entries, hasdata), after)
    | some found =>
      (.ok (entries.modify (pollIdx con) fun el => { el with event := found }, hasdata + 1), after)

/-- The last loop of `processx_c_connection_poll()`, for the system calls to come. -/
def waitLoop (ic : Riconv σ) (pollIdx : ℕ → ℕ) (timeout : ℤ) :
    List Round → ℤ → List Entry → ℕ → World σ →
      Option (Except String (List Entry × ℕ) × World σ)
  | calls, timeleft, entries, hasdata, w =>
    if timeout < 0 ∨ timeleft ≥ 0 then
      match calls with
      | [] => none
      | round :: later =>
        let (entries, hasdata) := scanAll entries round.sets hasdata
        match takePacket ic pollIdx round entries hasdata w with
        | (.error msg, w) => some (.error msg, w)
        | (.ok (entries, hasdata), w) =>
          if hasdata > 0 then some (.ok (entries, hasdata), w)
          else if round.interrupted then some (.error "interrupt", w)
          else waitLoop ic pollIdx timeout later (timeleft - pollInterval) entries hasdata w
    else some (.ok (entries, hasdata), w)

/-- `for (i = 0; i < j; i++) pollables[ptr[i]].event = PXTIMEOUT` -/
def timeOut (entries : List Entry) : List Entry :=
  entries.map fun el => if el.code = .handle then { el with event := .timeout } else el

/-- "j == 0 && selj == 0" -/
def nothingToPoll (entries : List Entry) : Bool :=
  (entries.countP fun el => el.code = .handle) == 0 && (entries.map Entry.sockets).sum == 0

/-- The pollables that are counted before the system calls. -/
def counted (entries : List Entry) : ℕ :=
  entries.countP fun el => el.code = .ready ∨ el.code = .connect

/-- `processx_c_connection_poll()`: the events, and the number of pollables with data. -/
def cConnectionPoll (ic : Riconv σ) (pollables : List Target) (pollIdx : ℕ → ℕ) (timeout : ℤ)
    (calls : List Round) (w : World σ) :
    Option (Except String (List PollEvent × ℕ) × World σ) :=
  match prePollAll ic pollables w with
  | (.error msg, w) => some (.error msg, w)
  | (.ok entries, w) =>
    let hasdata := counted entries
    if nothingToPoll entries then
      some (.ok (entries.map Entry.event, hasdata), w)
    else
      let timeout := if hasdata > 0 then 0 else timeout
      match waitLoop ic pollIdx timeout calls timeout entries hasdata w with
      | none => none
      | some (.error msg, w) => some (.error msg, w)
      | some (.ok (entries, hasdata), w) =>
        some (.ok ((if hasdata = 0 then timeOut entries else entries).map Entry.event, hasdata), w)

/-- What the first loop leaves in an entry. -/
structure Entry.Fresh (el : Entry) : Prop where
  stored : el.event = if el.code = .handle ∨ el.code = .select then .silent else el.code
  code : el.code ≠ .event
  object : el.target.object ≠ none → el.code ≠ .select

/-- The number of entries with data. -/
def dataCount (entries : List Entry) : ℕ := entries.countP fun el => el.event.isReady

variable {ic : Riconv σ}

/-- What asking for the event of a connection may return. -/
theorem prePollFuncConnection_codes {start : Start} {ccon : Connection σ} {found : PollEvent}
    (h : (prePollFuncConnection ic start ccon).1 = .ok found) :
    found = .closed ∨ found = .ready ∨ found = .connect ∨ found = .handle := by
  have hready : ∀ c : Connection σ, ∀ e, (preReady ic c).1 = some e → e = .closed ∨ e = .ready := by
    intro c e he
    unfold preReady at he
    split_ifs at he <;> simp_all
  unfold prePollFuncConnection at h
  rcases hfirst : preReady ic ccon with ⟨_ | e, c₁⟩ <;> rw [hfirst] at h <;> dsimp only at h
  · split_ifs at h with hconnect
    · cases h
      exact Or.inr (Or.inr (Or.inl rfl))
    · rcases hstart : connectionStartRead ic start c₁ with ⟨_ | msg, c', queued⟩ <;>
        rw [hstart] at h <;> dsimp only at h
      · rcases hsecond : preReady ic c' with ⟨_ | e, c₂⟩ <;> rw [hsecond] at h <;>
          dsimp only at h <;> cases h
        · split_ifs <;> simp
        · obtain rfl | rfl := hready c' found (by rw [hsecond])
          · exact Or.inl rfl
          · exact Or.inr (Or.inl rfl)
      · cases h
  · cases h
    obtain rfl | rfl := hready ccon found (by rw [hfirst])
    · exact Or.inl rfl
    · exact Or.inr (Or.inl rfl)

/-- Behind the first loop no entry has an event yet. -/
theorem prePollAll_fresh {pollables : List Target} {w after : World σ} {entries : List Entry}
    (h : prePollAll ic pollables w = (.ok entries, after)) : ∀ el ∈ entries, el.Fresh := by
  induction pollables generalizing w entries with
  | nil =>
    cases h
    exact List.forall_mem_nil _
  | cons el els ih =>
    cases el with
    | connection el =>
      unfold prePollAll at h
      dsimp only at h
      split at h
      · cases h
      · next found hfound =>
        split at h
        · cases h
        · next rest w' hrest =>
          cases h
          refine List.forall_mem_cons.mpr ⟨?_, ih hrest⟩
          obtain rfl | rfl | rfl | rfl := prePollFuncConnection_codes hfound
          all_goals exact ⟨by simp, by simp, fun _ => by simp⟩
    | nopipe =>
      unfold prePollAll at h
      split at h
      · cases h
      · next rest w' hrest =>
        cases h
        exact List.forall_mem_cons.mpr ⟨⟨by simp, by simp, fun _ => by simp⟩, ih hrest⟩
    | curl reads writes exceptions =>
      unfold prePollAll at h
      split at h
      · cases h
      · next rest w' hrest =>
        cases h
        exact List.forall_mem_cons.mpr ⟨⟨by simp, by simp, fun hne => absurd rfl hne⟩, ih hrest⟩

/-- What was counted before the system calls are the entries with data. -/
theorem counted_eq {entries : List Entry} (h : ∀ el ∈ entries, el.Fresh) :
    counted entries = dataCount entries := by
  refine List.countP_congr fun el hel => ?_
  obtain ⟨hstored, hcode, _⟩ := h el hel
  rw [hstored]
  revert hcode
  cases el.code <;> decide

/-- An entry after the sockets were looked at: only the event of an fd set may be another one. -/
structure Entry.Scanned (el el' : Entry) : Prop where
  target : el'.target = el.target
  code : el'.code = el.code
  event : el.code ≠ .select → el'.event = el.event

/-- Each fd set with data is counted once. -/
theorem scanAll_counts (els : List Entry) (sets : FdSets) (hasdata : ℕ)
    (hsilent : ∀ el ∈ els, el.code = .select → el.event.isReady = false) :
    (scanAll els sets hasdata).2 + dataCount els =
        hasdata + dataCount (scanAll els sets hasdata).1 ∧
      hasdata ≤ (scanAll els sets hasdata).2 ∧
      ((scanAll els sets hasdata).2 = hasdata → (scanAll els sets hasdata).1 = els) ∧
      List.Forall₂ Entry.Scanned els (scanAll els sets hasdata).1 := by
  induction els generalizing sets hasdata with
  | nil => exact ⟨rfl, Nat.le_refl _, fun _ => rfl, .nil⟩
  | cons el els ih =>
    have hrest := fun sets hasdata =>
      ih sets hasdata fun el' hel => hsilent el' (List.mem_cons_of_mem _ hel)
    have hcons : ∀ (el : Entry) els, dataCount (el :: els) =
        dataCount els + if el.event.isReady then 1 else 0 := fun el els => List.countP_cons
    unfold scanAll
    by_cases hselect : el.code = .select
    · rw [if_pos hselect]
      have hquiet := hsilent el List.mem_cons_self hselect
      rcases el.scan sets with ⟨_ | _, sets⟩
      · obtain ⟨hcounts, hle, hsame, hscanned⟩ := hrest sets hasdata
        dsimp only
        simp only [Bool.false_eq_true, if_false]
        refine ⟨?_, hle, fun hnone => by rw [hsame hnone], .cons ⟨rfl, rfl, fun _ => rfl⟩ hscanned⟩
        rw [hcons, hcons]
        omega
      · obtain ⟨hcounts, hle, hsame, hscanned⟩ := hrest sets (hasdata + 1)
        dsimp only
        simp only [if_true]
        refine ⟨?_, by omega, fun hnone => absurd hnone (by omega),
          .cons ⟨rfl, rfl, fun hother => absurd hselect hother⟩ hscanned⟩
        rw [hcons, hcons, hquiet]
        dsimp only [PollEvent.isReady]
        simp only [Bool.false_eq_true, if_false, if_true]
        omega
    · rw [if_neg hselect]
      obtain ⟨hcounts, hle, hsame, hscanned⟩ := hrest sets hasdata
      dsimp only
      refine ⟨?_, hle, fun hnone => by rw [hsame hnone], .cons ⟨rfl, rfl, fun _ => rfl⟩ hscanned⟩
      rw [hcons, hcons]
      omega

/-- The packet is for a pollable that has data already. -/
def Repeats (ic : Riconv σ) (pollIdx : ℕ → ℕ) (round : Round) (entries : List Entry)
    (w : World σ) : Prop :=
  ∃ con p el, round.packet ic w = some (con, p) ∧ entries[pollIdx con]? = some el ∧
    el.target.object = some con ∧ el.event.isReady = true

/-- What a packet gives its pollable. -/
theorem pollPacket_found (ic : Riconv σ) (polled : Bool) (bytes : ℕ) (c : Connection σ) :
    match (pollPacket ic polled bytes c).1 with
    | none => polled = false
    | some found => polled = true ∧ found.isReady = true := by
  unfold pollPacket
  dsimp only
  cases polled with
  | false => simp
  | true =>
    simp only [if_true]
    split_ifs <;> simp [PollEvent.isReady]

/-- An event with data is stored for an entry. -/
theorem dataCount_modify {entries : List Entry} {i : ℕ} {el : Entry} {found : PollEvent}
    (hel : entries[i]? = some el) (hfound : found.isReady = true) :
    dataCount (entries.modify i fun el => { el with event := found }) +
        (if el.event.isReady then 1 else 0) = dataCount entries + 1 := by
  have hcons : ∀ (el : Entry) els, dataCount (el :: els) =
      dataCount els + if el.event.isReady then 1 else 0 := fun el els => List.countP_cons
  induction entries generalizing i with
  | nil => simp at hel
  | cons first entries ih =>
    cases i with
    | zero =>
      obtain rfl : first = el := by simpa using hel
      rw [List.modify_zero_cons, hcons, hcons]
      dsimp only
      rw [hfound]
      simp only [if_true]
      omega
    | succ i =>
      have hrest := ih (i := i) (by simpa using hel)
      rw [List.modify_succ_cons, hcons, hcons]
      omega

/-- A packet is counted once, also if its pollable has data already. -/
theorem takePacket_counts {pollIdx : ℕ → ℕ} {round : Round} {entries entries' : List Entry}
    {hasdata hasdata' : ℕ} {w after : World σ}
    (h : takePacket ic pollIdx round entries hasdata w = (.ok (entries', hasdata'), after)) :
    (hasdata' = hasdata ∧ entries' = entries ∧ ¬ Repeats ic pollIdx round entries w) ∨
      (hasdata' = hasdata + 1 ∧ ((dataCount entries' = dataCount entries ∧
          Repeats ic pollIdx round entries w) ∨
        (dataCount entries' = dataCount entries + 1 ∧
          ¬ Repeats ic pollIdx round entries w))) := by
  unfold takePacket at h
  rcases hpacket : round.packet ic w with _ | ⟨con, p⟩ <;> rw [hpacket] at h <;> dsimp only at h
  · have hnot : ¬ Repeats ic pollIdx round entries w := by
      rintro ⟨con, p, el, hsome, _⟩
      rw [hpacket] at hsome
      cases hsome
    split_ifs at h
    · cases h
    · cases h
      exact Or.inl ⟨rfl, rfl, hnot⟩
  · have hcon : ∀ con' p', round.packet ic w = some (con', p') → con' = con := by
      intro con' p' hsome
      rw [hpacket] at hsome
      cases hsome
      rfl
    have hfound := pollPacket_found ic (isPolled entries pollIdx con) p.bytes.length
      ((background ic round.arrivals w).state con)
    rcases hevent : (pollPacket ic (isPolled entries pollIdx con) p.bytes.length
      ((background ic round.arrivals w).state con)).1 with _ | found <;>
        rw [hevent] at h hfound <;> dsimp only at h hfound
    · cases h
      refine Or.inl ⟨rfl, rfl, ?_⟩
      rintro ⟨con', p', el, hsome, hel, hobject, _⟩
      obtain rfl := hcon con' p' hsome
      unfold isPolled at hfound
      rw [hel] at hfound
      simp [hobject] at hfound
    · cases h
      obtain ⟨hpolled, hready⟩ := hfound
      unfold isPolled at hpolled
      obtain ⟨el, hel, hobject⟩ := Option.bind_eq_some_iff.mp (of_decide_eq_true hpolled)
      have hmodify := dataCount_modify hel hready
      have hrepeats : Repeats ic pollIdx round entries w ↔ el.event.isReady = true := by
        constructor
        · rintro ⟨con', p', el', hsome, hel', _, hagain⟩
          obtain rfl := hcon con' p' hsome
          rw [hel] at hel'
          cases hel'
          exact hagain
        · exact fun hagain => ⟨con, p, el, hpacket, hel, hobject, hagain⟩
      refine Or.inr ⟨rfl, ?_⟩
      rw [hrepeats]
      cases hagain : el.event.isReady with
      | true =>
        rw [hagain] at hmodify
        simp only [if_true] at hmodify
        exact Or.inl ⟨by omega, rfl⟩
      | false =>
        rw [hagain] at hmodify
        simp only [Bool.false_eq_true, if_false] at hmodify
        exact Or.inr ⟨by omega, Bool.false_ne_true⟩

/-- The sockets have nothing to do with it. -/
theorem repeats_scanned_iff {pollIdx : ℕ → ℕ} {round : Round} {entries scanned : List Entry}
    {w : World σ} (hobject : ∀ el ∈ entries, el.target.object ≠ none → el.code ≠ .select)
    (h : List.Forall₂ Entry.Scanned entries scanned) :
    Repeats ic pollIdx round scanned w ↔ Repeats ic pollIdx round entries w := by
  obtain ⟨hlength, hall⟩ := List.forall₂_iff_get.mp h
  have hsame : ∀ (i : ℕ) (el el' : Entry), entries[i]? = some el → scanned[i]? = some el' →
      el'.target = el.target ∧ (el.target.object ≠ none → el'.event = el.event) := by
    intro i el el' hel hel'
    have hmem := List.mem_of_getElem? hel
    obtain ⟨hi, rfl⟩ := List.getElem?_eq_some_iff.mp hel
    obtain ⟨hi', rfl⟩ := List.getElem?_eq_some_iff.mp hel'
    have hscanned : Entry.Scanned entries[i] scanned[i] := hall i hi hi'
    exact ⟨hscanned.target, fun hcon => hscanned.event (hobject _ hmem hcon)⟩
  constructor
  · rintro ⟨con, p, el', hpacket, hel', hcon, hready⟩
    obtain ⟨hi', _⟩ := List.getElem?_eq_some_iff.mp hel'
    obtain ⟨el, hel⟩ : ∃ el, entries[pollIdx con]? = some el :=
      ⟨_, List.getElem?_eq_getElem (hlength ▸ hi')⟩
    obtain ⟨htarget, hevent⟩ := hsame _ _ _ hel hel'
    have hobject' : el.target.object = some con := htarget ▸ hcon
    exact ⟨con, p, el, hpacket, hel, hobject', hevent (by simp [hobject']) ▸ hready⟩
  · rintro ⟨con, p, el, hpacket, hel, hcon, hready⟩
    obtain ⟨hi, _⟩ := List.getElem?_eq_some_iff.mp hel
    obtain ⟨el', hel'⟩ : ∃ el', scanned[pollIdx con]? = some el' :=
      ⟨_, List.getElem?_eq_getElem (hlength ▸ hi)⟩
    obtain ⟨htarget, hevent⟩ := hsame _ _ _ hel hel'
    exact ⟨con, p, el', hpacket, hel', htarget.symm ▸ hcon,
      (hevent (by simp [hcon])).symm ▸ hready⟩

/-- **A round** counts as many entries as have data after it, exactly if the packet is not for one
that has data already. -/
theorem round_counts {pollIdx : ℕ → ℕ} {round : Round} {entries entries' : List Entry}
    {hasdata' : ℕ} {w after : World σ}
    (hobject : ∀ el ∈ entries, el.target.object ≠ none → el.code ≠ .select)
    (hsilent : ∀ el ∈ entries, el.code = .select → el.event.isReady = false)
    (h : takePacket ic pollIdx round (scanAll entries round.sets (dataCount entries)).1
      (scanAll entries round.sets (dataCount entries)).2 w = (.ok (entries', hasdata'), after)) :
    (hasdata' = dataCount entries' ↔ ¬ Repeats ic pollIdx round entries w) ∧
      dataCount entries ≤ hasdata' ∧ (hasdata' = dataCount entries → entries' = entries) := by
  obtain ⟨hcounts, hle, hsame, hscanned⟩ :=
    scanAll_counts entries round.sets (dataCount entries) hsilent
  have hrepeats : Repeats ic pollIdx round _ w ↔ Repeats ic pollIdx round entries w :=
    repeats_scanned_iff hobject hscanned
  obtain ⟨hdata, hentries, hnot⟩ | ⟨hdata, ⟨hsize, hyes⟩ | ⟨hsize, hnot⟩⟩ := takePacket_counts h
  · rw [hrepeats] at hnot
    refine ⟨iff_of_true ?_ hnot, by omega, fun hnone => ?_⟩
    · rw [hentries]
      omega
    · rw [hentries]
      exact hsame (by omega)
  · rw [hrepeats] at hyes
    refine ⟨iff_of_false (by omega) (not_not.mpr hyes), by omega, fun hnone => ?_⟩
    omega
  · rw [hrepeats] at hnot
    refine ⟨iff_of_true (by omega) hnot, by omega, fun hnone => ?_⟩
    omega

/-- Rounds from a state in which nothing has data. -/
theorem waitLoop_counts {pollIdx : ℕ → ℕ} {timeout timeleft : ℤ} {calls : List Round}
    {entries entries' : List Entry} {hasdata' : ℕ} {w after : World σ}
    (hobject : ∀ el ∈ entries, el.target.object ≠ none → el.code ≠ .select)
    (hnone : dataCount entries = 0)
    (h : waitLoop ic pollIdx timeout calls timeleft entries 0 w =
      some (.ok (entries', hasdata'), after)) : hasdata' = dataCount entries' := by
  have hidle : ∀ el ∈ entries, el.event.isReady = false := fun el hel => by
    simpa using List.countP_eq_zero.mp hnone el hel
  induction calls generalizing timeleft w with
  | nil =>
    unfold waitLoop at h
    split_ifs at h
    cases h
    exact hnone.symm
  | cons round later ih =>
    unfold waitLoop at h
    split_ifs at h with htime
    · dsimp only at h
      have hnot : ¬ Repeats ic pollIdx round entries w := by
        rintro ⟨con, p, el, _, hel, _, hready⟩
        rw [hidle el (List.mem_of_getElem? hel)] at hready
        cases hready
      rcases htake : takePacket ic pollIdx round (scanAll entries round.sets 0).1
        (scanAll entries round.sets 0).2 w with ⟨msg | ⟨entries₂, hasdata₂⟩, w₂⟩ <;>
          rw [htake] at h <;> dsimp only at h
      · cases h
      · obtain ⟨hcounts, _, hsame⟩ := round_counts hobject (fun el hel _ => hidle el hel)
          (hnone.symm ▸ htake)
        split_ifs at h with hdata hinterrupt
        · cases h
          exact hcounts.mpr hnot
        · cases h
        · obtain rfl : hasdata₂ = 0 := by omega
          rw [hsame hnone.symm] at h
          exact ih h
    · cases h
      exact hnone.symm

/-- With data from before the system calls there is one round. -/
theorem waitLoop_once {pollIdx : ℕ → ℕ} {calls : List Round} {entries entries' : List Entry}
    {hasdata' : ℕ} {w after : World σ}
    (hobject : ∀ el ∈ entries, el.target.object ≠ none → el.code ≠ .select)
    (hsilent : ∀ el ∈ entries, el.code = .select → el.event.isReady = false)
    (hdata : 0 < dataCount entries)
    (h : waitLoop ic pollIdx 0 calls 0 entries (dataCount entries) w =
      some (.ok (entries', hasdata'), after)) :
    ∃ round, calls.head? = some round ∧ 0 < hasdata' ∧
      (hasdata' = dataCount entries' ↔ ¬ Repeats ic pollIdx round entries w) := by
  unfold waitLoop at h
  rw [if_pos (Or.inr (Int.le_refl 0))] at h
  cases calls with
  | nil => cases h
  | cons round later =>
    dsimp only at h
    rcases htake : takePacket ic pollIdx round
      (scanAll entries round.sets (dataCount entries)).1
      (scanAll entries round.sets (dataCount entries)).2 w with ⟨msg | ⟨entries₂, hasdata₂⟩, w₂⟩ <;>
        rw [htake] at h <;> dsimp only at h
    · cases h
    · obtain ⟨hcounts, hle, _⟩ := round_counts hobject hsilent htake
      have hpos : hasdata₂ > 0 := Nat.lt_of_lt_of_le hdata hle
      rw [if_pos hpos] at h
      cases h
      exact ⟨round, rfl, hpos, hcounts⟩

/-- A connection that had data before the system calls is counted a second time, since the first
packet is for it. -/
def CountedTwice (ic : Riconv σ) (pollables : List Target) (pollIdx : ℕ → ℕ) (calls : List Round)
    (w : World σ) : Prop :=
  ∃ entries before round, prePollAll ic pollables w = (.ok entries, before) ∧
    nothingToPoll entries = false ∧ calls.head? = some round ∧
    Repeats ic pollIdx round entries before

/-- The events that are stored have data for the number of entries with data. -/
theorem countP_events (entries : List Entry) :
    (entries.map Entry.event).countP PollEvent.isReady = dataCount entries :=
  List.countP_map

/-- The number that `processx_c_connection_poll()` returns is that of the events exactly if no
connection is counted twice. -/
theorem cConnectionPoll_counts_iff {pollables : List Target} {pollIdx : ℕ → ℕ} {timeout : ℤ}
    {calls : List Round} {w after : World σ} {events : List PollEvent} {hasdata : ℕ}
    (hpoll : cConnectionPoll ic pollables pollIdx timeout calls w =
      some (.ok (events, hasdata), after)) :
    hasdata = events.countP PollEvent.isReady ↔ ¬ CountedTwice ic pollables pollIdx calls w := by
  unfold cConnectionPoll at hpoll
  rcases hfirst : prePollAll ic pollables w with ⟨msg | entries, before⟩ <;>
    rw [hfirst] at hpoll <;> dsimp only at hpoll
  · cases hpoll
  have hfresh := prePollAll_fresh hfirst
  have hobject : ∀ el ∈ entries, el.target.object ≠ none → el.code ≠ .select :=
    fun el hel => (hfresh el hel).object
  have hsilent : ∀ el ∈ entries, el.code = .select → el.event.isReady = false := by
    intro el hel hselect
    rw [(hfresh el hel).stored, if_pos (Or.inr hselect)]
    rfl
  rw [counted_eq hfresh] at hpoll
  cases hnothing : nothingToPoll entries with
  | true =>
    rw [hnothing, if_pos rfl] at hpoll
    cases hpoll
    refine iff_of_true (countP_events entries).symm ?_
    rintro ⟨entries', before', round, hfirst', hsome, _⟩
    rw [hfirst] at hfirst'
    cases hfirst'
    rw [hnothing] at hsome
    cases hsome
  | false =>
    rw [hnothing, if_neg Bool.false_ne_true] at hpoll
    have htwice : ∀ round, calls.head? = some round →
        (CountedTwice ic pollables pollIdx calls w ↔ Repeats ic pollIdx round entries before) := by
      intro round hround
      constructor
      · rintro ⟨entries', before', round', hfirst', _, hround', hrepeats⟩
        rw [hfirst] at hfirst'
        cases hfirst'
        rw [hround] at hround'
        cases hround'
        exact hrepeats
      · exact fun hrepeats => ⟨entries, before, round, hfirst, hnothing, hround, hrepeats⟩
    by_cases hdata : dataCount entries > 0
    · -- one round, that does not wait
      rw [if_pos hdata] at hpoll
      rcases hwait : waitLoop ic pollIdx 0 calls 0 entries (dataCount entries) before with
        _ | ⟨msg | ⟨entries', hasdata'⟩, after'⟩ <;> rw [hwait] at hpoll <;> dsimp only at hpoll
      · cases hpoll
      · cases hpoll
      · obtain ⟨round, hround, hpos, hcounts⟩ := waitLoop_once hobject hsilent hdata hwait
        rw [if_neg (Nat.ne_of_gt hpos)] at hpoll
        cases hpoll
        rw [countP_events, htwice round hround]
        exact hcounts
    · -- rounds until there is something
      have hnone : dataCount entries = 0 := Nat.eq_zero_of_not_pos hdata
      have hnot : ¬ CountedTwice ic pollables pollIdx calls w := by
        rintro ⟨entries', before', round, hfirst', _, _, con, p, el, _, hel, _, hready⟩
        rw [hfirst] at hfirst'
        cases hfirst'
        exact List.countP_eq_zero.mp hnone el (List.mem_of_getElem? hel) hready
      rw [if_neg hdata, hnone] at hpoll
      refine iff_of_true ?_ hnot
      rcases hwait : waitLoop ic pollIdx timeout calls timeout entries 0 before with
        _ | ⟨msg | ⟨entries', hasdata'⟩, after'⟩ <;> rw [hwait] at hpoll <;> dsimp only at hpoll
      · cases hpoll
      · cases hpoll
      · have hcounts := waitLoop_counts hobject hnone hwait
        by_cases hzero : hasdata' = 0
        · rw [if_pos hzero] at hpoll
          cases hpoll
          rw [countP_events, hzero]
          refine (List.countP_eq_zero.mpr fun el hel => ?_).symm
          obtain ⟨el', hel', rfl⟩ := List.mem_map.mp hel
          have hidle := List.countP_eq_zero.mp (hcounts.symm.trans hzero) el' hel'
          split_ifs
          · exact Bool.false_ne_true
          · exact hidle
        · rw [if_neg hzero] at hpoll
          cases hpoll
          rw [countP_events]
          exact hcounts

/-- The entries of connections. -/
def entriesOf (pollables : List Pollable) (found events : List PollEvent) : List Entry :=
  List.zipWith (fun el stored => ⟨.connection el.1, el.2, stored⟩) (pollables.zip found) events

variable {pollables : List Pollable} {found events : List PollEvent}

/-- The events of the entries are the events. -/
theorem event_entriesOf (hfound : found.length = pollables.length)
    (hevents : events.length = pollables.length) :
    (entriesOf pollables found events).map Entry.event = events := by
  unfold entriesOf
  rw [List.map_zipWith]
  apply List.ext_getElem
  · simp [hfound, hevents]
  · intro i hi hi'
    simp

/-- The codes of the entries are what the first loop has found. -/
theorem code_entriesOf (hfound : found.length = pollables.length)
    (hevents : events.length = pollables.length) :
    (entriesOf pollables found events).map Entry.code = found := by
  unfold entriesOf
  rw [List.map_zipWith]
  apply List.ext_getElem
  · simp [hfound, hevents]
  · intro i hi hi'
    simp

/-- The objects of the entries are those of the connections. -/
theorem getElem?_entriesOf (hfound : found.length = pollables.length)
    (hevents : events.length = pollables.length) (i : ℕ) :
    ((entriesOf pollables found events)[i]?).bind (·.target.object) =
      (pollables[i]?).map Pollable.object := by
  unfold entriesOf
  by_cases hi : i < pollables.length
  · simp [hi, hfound, hevents, Target.object]
  · have hnone : pollables[i]? = none := List.getElem?_eq_none (Nat.le_of_not_lt hi)
    have hentry : (entriesOf pollables found events)[i]? = none := by
      apply List.getElem?_eq_none
      simp only [entriesOf, List.length_zipWith, List.length_zip]
      omega
    unfold entriesOf at hentry
    rw [hnone, hentry]
    rfl

/-- An event is stored in an entry. -/
theorem modify_entriesOf (i : ℕ) (e : PollEvent) :
    (entriesOf pollables found events).modify i (fun el => { el with event := e }) =
      entriesOf pollables found (events.set i e) := by
  unfold entriesOf
  generalize pollables.zip found = els
  induction els generalizing i events with
  | nil => simp
  | cons el els ih =>
    cases events with
    | nil => simp
    | cons first events =>
      cases i with
      | zero => rfl
      | succ i =>
        rw [List.zipWith_cons_cons, List.modify_succ_cons, ih, List.set_cons_succ,
          List.zipWith_cons_cons]

/-- Each entry is about a connection. -/
theorem object_entriesOf : ∀ el ∈ entriesOf pollables found events, el.target.object ≠ none := by
  intro el hel
  unfold entriesOf at hel
  obtain ⟨i, hi, rfl⟩ := List.mem_iff_getElem.mp hel
  rw [List.getElem_zipWith]
  simp [Target.object]

/-- There is nothing to look for without an fd set. -/
theorem scanAll_of_none {entries : List Entry} (h : ∀ el ∈ entries, el.code ≠ .select)
    (sets : FdSets) (hasdata : ℕ) : scanAll entries sets hasdata = (entries, hasdata) := by
  induction entries with
  | nil => rfl
  | cons el entries ih =>
    unfold scanAll
    rw [if_neg (h el List.mem_cons_self), ih fun el' hel => h el' (List.mem_cons_of_mem _ hel)]

/-- A round without curl. -/
def Round.ofStatus (sres : Status) : Round := { sres with }

/-- Without sockets a packet is handled as in the loop for connections. -/
theorem takePacket_connections (hfound : found.length = pollables.length)
    (hevents : events.length = pollables.length) (pollIdx : ℕ → ℕ) (sres : Status)
    (hasdata : ℕ) (w : World σ) :
    takePacket ic pollIdx (.ofStatus sres) (entriesOf pollables found events) hasdata w =
      match pollStatus ic pollables pollIdx sres events hasdata w with
      | (.error msg, w) => (.error msg, w)
      | (.ok (events, hasdata), w) => (.ok (entriesOf pollables found events, hasdata), w) := by
  have hpolled : ∀ con, isPolled (entriesOf pollables found events) pollIdx con =
      decide (pollables[pollIdx con]?.map Pollable.object = some con) := fun con => by
    unfold isPolled
    rw [getElem?_entriesOf hfound hevents]
  have hpacket : (Round.ofStatus sres).packet ic w = (background ic sres.arrivals w).queue.head? :=
    rfl
  unfold takePacket pollStatus
  rw [hpacket]
  dsimp only [Round.ofStatus]
  rcases (background ic sres.arrivals w).queue with _ | ⟨⟨con, p⟩, rest⟩
  · simp only [List.head?_nil, Bool.false_eq_true, not_false_eq_true, and_true]
    cases sres.error <;> rfl
  · simp only [List.head?_cons, hpolled]
    rcases (pollPacket ic (decide (pollables[pollIdx con]?.map Pollable.object = some con))
      p.bytes.length ((background ic sres.arrivals w).state con)).1 with _ | e
    · rfl
    · dsimp only
      rw [modify_entriesOf]

/-- A packet does not change the number of events. -/
theorem length_pollStatus {pollIdx : ℕ → ℕ} {sres : Status} {hasdata hasdata' : ℕ}
    {events' : List PollEvent} {w after : World σ}
    (h : pollStatus ic pollables pollIdx sres events hasdata w = (.ok (events', hasdata'), after)) :
    events'.length = events.length := by
  unfold pollStatus at h
  dsimp only at h
  split at h
  · split_ifs at h <;> cases h
    rfl
  · split at h <;> cases h
    · rfl
    · exact List.length_set

/-- The loop of the last module, for connections. -/
theorem waitLoop_connections (hfound : found.length = pollables.length)
    (hevents : events.length = pollables.length) (hnone : PollEvent.select ∉ found)
    (pollIdx : ℕ → ℕ) (timeout timeleft : ℤ) (calls : List Status) (hasdata : ℕ) (w : World σ) :
    waitLoop ic pollIdx timeout (calls.map .ofStatus) timeleft (entriesOf pollables found events)
        hasdata w =
      match Win.waitLoop ic pollables pollIdx timeout calls timeleft events hasdata w with
      | none => none
      | some (.error msg, w) => some (.error msg, w)
      | some (.ok (events, hasdata), w) =>
        some (.ok (entriesOf pollables found events, hasdata), w) := by
  induction calls generalizing events timeleft hasdata w with
  | nil =>
    unfold waitLoop Win.waitLoop
    split_ifs <;> rfl
  | cons sres later ih =>
    have hscan : ∀ sets n, scanAll (entriesOf pollables found events) sets n =
        (entriesOf pollables found events, n) := by
      refine scanAll_of_none fun el hel hselect => hnone ?_
      rw [← code_entriesOf hfound hevents, ← hselect]
      exact List.mem_map_of_mem hel
    unfold waitLoop Win.waitLoop
    rw [List.map_cons]
    dsimp only
    rw [hscan]
    dsimp only
    rw [takePacket_connections hfound hevents]
    by_cases htime : timeout < 0 ∨ timeleft ≥ 0
    · rw [if_pos htime, if_pos htime]
      rcases hstatus : pollStatus ic pollables pollIdx sres events hasdata w with
        ⟨msg | ⟨events', hasdata'⟩, w'⟩ <;> dsimp only
      have hlength : events'.length = pollables.length := (length_pollStatus hstatus).trans hevents
      have hinterrupted : (Round.ofStatus sres).interrupted = sres.interrupted := rfl
      rw [ih hlength, hinterrupted]
      by_cases hdata : hasdata' > 0
      · rw [if_pos hdata, if_pos hdata]
      · rw [if_neg hdata, if_neg hdata]
        cases sres.interrupted <;> rfl
    · rw [if_neg htime, if_neg htime]

/-- Nor does the loop of a poll. -/
theorem length_waitLoop {pollIdx : ℕ → ℕ} {timeout timeleft : ℤ} {calls : List Status}
    {hasdata hasdata' : ℕ} {events' : List PollEvent} {w after : World σ}
    (h : Win.waitLoop ic pollables pollIdx timeout calls timeleft events hasdata w =
      some (.ok (events', hasdata'), after)) : events'.length = events.length := by
  induction calls generalizing events timeleft hasdata w with
  | nil =>
    unfold Win.waitLoop at h
    split_ifs at h
    cases h
    rfl
  | cons sres later ih =>
    unfold Win.waitLoop at h
    split_ifs at h with htime
    · dsimp only at h
      split at h
      · cases h
      · next hstatus =>
        split_ifs at h
        · cases h
          exact length_pollStatus hstatus
        · cases h
        · exact (ih h).trans (length_pollStatus hstatus)
    · cases h
      rfl

/-- The first loop finds something for each connection. -/
theorem length_prePollAll {w after : World σ}
    (h : Win.prePollAll ic pollables w = (.ok found, after)) : found.length = pollables.length := by
  induction pollables generalizing w found with
  | nil =>
    cases h
    rfl
  | cons el els ih =>
    unfold Win.prePollAll at h
    dsimp only at h
    split at h
    · cases h
    · split at h
      · cases h
      · next hrest =>
        cases h
        exact congrArg (· + 1) (ih hrest)

/-- There is nothing to poll if no connection has a handle to wait for. -/
theorem nothingToPoll_entriesOf (hfound : found.length = pollables.length)
    (hevents : events.length = pollables.length) :
    nothingToPoll (entriesOf pollables found events) = decide (PollEvent.handle ∉ found) := by
  have hsockets : ((entriesOf pollables found events).map Entry.sockets).sum = 0 := by
    refine List.sum_eq_zero fun n hn => ?_
    unfold entriesOf at hn
    rw [List.map_zipWith] at hn
    obtain ⟨i, hi, rfl⟩ := List.mem_iff_getElem.mp hn
    rw [List.getElem_zipWith]
    rfl
  have hcount : (entriesOf pollables found events).countP (fun el => el.code = .handle) =
      found.count .handle := by
    conv_rhs => rw [List.count, ← code_entriesOf hfound hevents, List.countP_map]
    rfl
  unfold nothingToPoll
  rw [hsockets, hcount, Bool.eq_iff_iff]
  simp [List.count_eq_zero]

/-- A timeout is stored in the entries. -/
theorem timeOut_entriesOf (hfound : found.length = pollables.length)
    (hevents : events.length = pollables.length) :
    (timeOut (entriesOf pollables found events)).map Entry.event = Win.timeOut found events := by
  unfold timeOut Win.timeOut entriesOf
  rw [List.map_map, List.map_zipWith]
  apply List.ext_getElem
  · simp [hfound, hevents]
  · intro i hi hi'
    simp only [List.getElem_zipWith, List.getElem_zip, Function.comp_apply]
    split_ifs <;> rfl

/-- Without sockets the first loop is the one for connections. -/
theorem prePollAll_connections (pollables : List Pollable) (w : World σ) :
    prePollAll ic (pollables.map .connection) w =
      match Win.prePollAll ic pollables w with
      | (.error msg, w) => (.error msg, w)
      | (.ok found, w) => (.ok (entriesOf pollables found
          (found.map fun el => if el = .handle then .silent else el)), w) := by
  induction pollables generalizing w with
  | nil => rfl
  | cons el els ih =>
    rw [List.map_cons]
    unfold prePollAll Win.prePollAll
    dsimp only
    rcases (prePollFuncConnection ic el.start ((background ic el.arrivals w).state el.object)).1
      with msg | found
    · rfl
    · dsimp only
      rw [ih]
      rcases Win.prePollAll ic els _ with ⟨_ | _, _⟩ <;> rfl

/-- For connections only, `processx_c_connection_poll()` is that without curl. -/
theorem cConnectionPoll_connections (pollables : List Pollable) (pollIdx : ℕ → ℕ) (timeout : ℤ)
    (calls : List Status) (w : World σ) :
    cConnectionPoll ic (pollables.map .connection) pollIdx timeout (calls.map .ofStatus) w =
      Win.cConnectionPoll ic pollables pollIdx timeout calls w := by
  unfold cConnectionPoll Win.cConnectionPoll
  rw [prePollAll_connections]
  have hcodes := @prePollAll_fresh _ ic (pollables.map .connection) w
  rw [prePollAll_connections] at hcodes
  rcases hfirst : Win.prePollAll ic pollables w with ⟨msg | found, before⟩
  · rfl
  rw [hfirst] at hcodes
  dsimp only at hcodes ⊢
  have hfound := length_prePollAll hfirst
  have hevents : (found.map fun el => if el = .handle then .silent else el).length =
      pollables.length := (List.length_map _).trans hfound
  have hcounted : counted (entriesOf pollables found
      (found.map fun el => if el = .handle then .silent else el)) =
        found.countP fun el => el = .ready ∨ el = .connect := by
    conv_rhs => rw [← code_entriesOf hfound hevents, List.countP_map]
    rfl
  have hnone : PollEvent.select ∉ found := by
    intro hmem
    rw [← code_entriesOf hfound hevents] at hmem
    obtain ⟨el, hel, hselect⟩ := List.mem_map.mp hmem
    exact (hcodes rfl el hel).object (object_entriesOf el hel) hselect
  rw [hcounted, nothingToPoll_entriesOf hfound hevents, waitLoop_connections hfound hevents hnone,
    event_entriesOf hfound hevents]
  by_cases hhandle : PollEvent.handle ∉ found
  · rw [if_pos hhandle, if_pos (decide_eq_true hhandle)]
  · rw [if_neg hhandle, if_neg (by simpa using hhandle)]
    generalize hwait : Win.waitLoop ic pollables pollIdx _ calls _ _ _ before = result
    rcases result with _ | ⟨msg | ⟨events', hasdata⟩, after⟩ <;> dsimp only
    have hevents' := (length_waitLoop hwait).trans hevents
    by_cases hdata : hasdata = 0
    · rw [if_pos hdata, if_pos hdata, timeOut_entriesOf hfound hevents']
    · rw [if_neg hdata, if_neg hdata, event_entriesOf hfound hevents']

end Processx.Win.Select

namespace Processx

/-- **The count and the events.** On Unix `processx_c_connection_poll()` returns the number of the
pollables with an event exactly if the system's answer has nothing for the fd sets of curl, and on
Windows exactly if the first packet is not for a connection that had data before the wait. -/
theorem pollCount_agrees_iff {σ : Type} (ic : Riconv σ) :
    (∀ (heap after : Heap σ) (pollables : List Pollable) (timeout : ℤ) (calls : List PollCall)
        (events : List PollEvent) (hasdata : ℕ),
      cConnectionPoll ic heap pollables timeout calls = some (.ok (events, hasdata), after) →
      ∃ revents, pollAnswer ic heap pollables timeout calls = some (.ok revents) ∧
        (hasdata = events.countP PollEvent.isReady ↔ CurlQuiet ic heap pollables revents)) ∧
    ∀ (pollables : List Win.Select.Target) (pollIdx : ℕ → ℕ) (timeout : ℤ)
        (calls : List Win.Select.Round) (w after : Win.World σ) (events : List PollEvent)
        (hasdata : ℕ),
      Win.Select.cConnectionPoll ic pollables pollIdx timeout calls w =
        some (.ok (events, hasdata), after) →
      (hasdata = events.countP PollEvent.isReady ↔
        ¬ Win.Select.CountedTwice ic pollables pollIdx calls w) :=
  ⟨fun _ _ _ _ _ _ _ hpoll => cConnectionPoll_counts_iff hpoll,
    fun _ _ _ _ _ _ _ _ hpoll => Win.Select.cConnectionPoll_counts_iff hpoll⟩

/-- A connection with data, and an fd set, without data on Unix and with data on Windows. -/
theorem pollCount_agrees_iff_data :
    (∃ revents, CurlQuiet utf8Riconv (fun _ => { handle := 5 })
      [.connection (some 0), .curl [6] [7] []] revents) ∧
    ¬ Win.Select.CountedTwice utf8Riconv [.connection { object := 0 }, .curl [6] [7] []] id
      [{ arrivals := [(0, [0x61])], sets := { reads := [6] } }]
      (Win.World.create fun _ => { handle := 1, handle_ne := by decide }) := by
  have hunix : cConnectionPoll utf8Riconv (fun _ => { handle := 5 })
      [.connection (some 0), .curl [6] [7] []] 1000
      [.eintr, .answer (fun n => if n = 0 then { pollin := true } else {}) false] =
    some (.ok ([.ready, .silent], 1), _) := rfl
  obtain ⟨revents, _, hiff⟩ := (pollCount_agrees_iff utf8Riconv).1 _ _ _ _ _ _ _ hunix
  have hwin : (Win.Select.cConnectionPoll utf8Riconv
      [.connection { object := 0 }, .curl [6] [7] []] id 1000
      [{ arrivals := [(0, [0x61])], sets := { reads := [6] } }]
      (Win.World.create fun _ => { handle := 1, handle_ne := by decide })).map Prod.fst =
    some (.ok ([.ready, .event], 2)) := by decide +kernel
  obtain ⟨⟨result, after⟩, hpoll, hresult⟩ := Option.map_eq_some_iff.mp hwin
  dsimp only at hresult
  subst hresult
  exact ⟨⟨revents, hiff.mp rfl⟩,
    ((pollCount_agrees_iff utf8Riconv).2 _ _ _ _ _ _ _ _ hpoll).mp rfl⟩

/-- On Unix an fd set with data is not counted. On Windows a connection with half a line, for
which the rest came before it is polled with another one, is counted twice. -/
theorem pollCount_differs :
    (∃ after, cConnectionPoll utf8Riconv (fun _ => { handle := 5 }) [.curl [6] [] []] 1000
        [.answer (fun _ => { pollin := true }) false] = some (.ok ([.event], 0), after)) ∧
    let before := [Win.Call.poll [{ object := 0 }] (fun _ => 0) 100 [{ arrivals := [(0, [0x61])] }],
        .read 0 {} [{}], .other (.act 0 (.complete [0x0a]))].foldlM (Win.Call.after utf8Riconv)
          (Win.World.create fun _ => { handle := 1, handle_ne := by decide })
    (before.bind fun w => (Win.Select.cConnectionPoll utf8Riconv
      [.connection { object := 0 }, .connection { object := 1 }] id 1000 [{}] w).map Prod.fst) =
        some (.ok ([.ready, .silent], 2)) :=
  ⟨⟨_, rfl⟩, by decide +kernel⟩

end Processx
