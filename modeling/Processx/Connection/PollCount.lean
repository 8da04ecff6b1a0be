import Processx.Connection.Poll

/-!
# The number of pollables with data

`processx_c_connection_poll()` returns how many pollables have data. On Unix it counts those that
are ready before the system call, and the connections that the answer makes ready. A curl fd set
gets its event without being counted.
-/

namespace Processx

variable {σ : Type}

/-- What the last loop counts for a pollable. -/
def PolledEntry.counted (el : PolledEntry) (bits : List PollBits) : ℕ :=
  if el.event = .select then 0 else bits.countP fun b => pollDecode b = .ready

/-- The fd sets of curl for which the answer has nothing. -/
def CurlQuiet (ic : Riconv σ) (heap : Heap σ) (pollables : List Pollable)
    (revents : ℕ → PollBits) : Prop :=
  ∀ part ∈ parts revents 0 (prePollAll ic heap pollables).1,
    part.1.event = .select → ∀ b ∈ part.2, b.forCurl = false

/-- What is stored before the system call is counted. -/
theorem collectFds_counts {els : List PolledEntry} (hwf : ∀ el ∈ els, el.WellFormed) (i : ℕ) :
    (collectFds i els).2.2 = (els.map fun el => (el.collect 0).1).countP PollEvent.isReady := by
  induction els generalizing i with
  | nil => rfl
  | cons el els ih =>
    have hone : (el.collect i).2.2 = if (el.collect 0).1.isReady = true then 1 else 0 := by
      have hel := hwf el List.mem_cons_self
      unfold PolledEntry.WellFormed at hel
      unfold PolledEntry.collect
      cases hpollable : el.pollable with
      | curl reads writes exceptions =>
        rw [hpollable] at hel
        rw [hel]
        rfl
      | connection object =>
        rw [hpollable] at hel
        obtain hevent | hevent | hevent | hevent := hel <;> rw [hevent] <;> rfl
    have hsum : (collectFds i (el :: els)).2.2 =
      (el.collect i).2.2 + (collectFds (i + 1) els).2.2 := rfl
    rw [hsum, hone, ih (fun el' hel => hwf el' (List.mem_cons_of_mem _ hel)), List.map_cons,
      List.countP_cons]
    exact Nat.add_comm _ _

/-- What the last loop counts for the descriptors of one pollable. -/
theorem decodeFds_block_counts (heap : Heap σ) {entries : List PolledEntry} {i : ℕ}
    {el : PolledEntry} (hel : entries[i]? = some el) (revents : ℕ → PollBits)
    (fds more : List PollFd) (hptr : ∀ fd ∈ fds, fd.ptr = i) (k : ℕ) (results : List PollEvent)
    (hasdata : ℕ) :
    ∃ results', decodeFds heap entries revents k (fds ++ more) results hasdata =
      decodeFds heap entries revents (k + fds.length) more results'
        (hasdata + el.counted ((List.range fds.length).map fun m => revents (k + m))) := by
  induction fds generalizing k results hasdata with
  | nil =>
    refine ⟨results, ?_⟩
    have hnone : el.counted [] = 0 := by
      unfold PolledEntry.counted
      split_ifs <;> rfl
    rw [List.length_nil, List.range_zero, List.map_nil, hnone]
    rfl
  | cons fd fds ih =>
    have hfd : fd.ptr = i := hptr fd List.mem_cons_self
    have hround : (decodeFd heap entries revents k fd results hasdata).2 =
        hasdata + el.counted [revents k] := by
      unfold decodeFd PolledEntry.counted
      rw [hfd, hel]
      dsimp only
      by_cases hselect : el.event = .select
      · rw [if_pos hselect, if_pos hselect]
        split_ifs <;> rfl
      · rw [if_neg hselect, if_neg hselect]
        split_ifs with hready <;> simp [hready]
    obtain ⟨results', hrest⟩ := ih (fun fd' h => hptr fd' (List.mem_cons_of_mem _ h)) (k + 1)
      (decodeFd heap entries revents k fd results hasdata).1
      (decodeFd heap entries revents k fd results hasdata).2
    have hshift : (List.range (fds.length + 1)).map (fun m => revents (k + m)) =
        revents k :: (List.range fds.length).map fun m => revents (k + 1 + m) := by
      rw [List.range_succ_eq_map, List.map_cons, List.map_map]
      exact congrArg _ (List.map_congr_left fun m _ => congrArg revents (by simp; omega))
    have hcons : ∀ b bits, el.counted (b :: bits) = el.counted [b] + el.counted bits := by
      intro b bits
      unfold PolledEntry.counted
      split_ifs
      · rfl
      · rw [List.countP_cons, List.countP_singleton]
        exact Nat.add_comm _ _
    have hunfold : decodeFds heap entries revents k (fd :: fds ++ more) results hasdata =
        decodeFds heap entries revents (k + 1) (fds ++ more)
          (decodeFd heap entries revents k fd results hasdata).1
          (decodeFd heap entries revents k fd results hasdata).2 := rfl
    refine ⟨results', ?_⟩
    rw [hunfold, hrest, hround, List.length_cons, hshift,
      hcons (revents k) ((List.range fds.length).map fun m => revents (k + 1 + m)),
      show k + 1 + fds.length = k + (fds.length + 1) by omega, Nat.add_assoc hasdata]

/-- The decoded answer of `poll()` is one of three. -/
theorem pollDecode_cases (b : PollBits) :
    pollDecode b = .ready ∨ pollDecode b = .closed ∨ pollDecode b = .silent := by
  unfold pollDecode
  split_ifs <;> simp

/-- The first loop never gives the event of an fd set. -/
theorem PolledEntry.WellFormed.event_ne {el : PolledEntry} (hwf : el.WellFormed) :
    el.event ≠ .event := by
  intro hevent
  unfold PolledEntry.WellFormed at hwf
  rw [hevent] at hwf
  split at hwf
  · cases hwf
  · obtain h | h | h | h := hwf <;> cases h

/-- What an answer makes of a pollable, and whether it is counted. -/
theorem counted_add_event (heap : Heap σ) {el : PolledEntry} (hwf : el.WellFormed)
    {bits : List PollBits} (hslots : bits.length = el.slots) :
    (if (el.collect 0).1.isReady then 1 else 0) + el.counted bits +
        (if el.decoded heap bits = .event then 1 else 0) =
      if (el.decoded heap bits).isReady then 1 else 0 := by
  by_cases hselect : el.event = .select
  · -- the event of an fd set is not counted
    have hstored : (el.collect 0).1 = .silent := by
      unfold PolledEntry.collect
      rw [hselect]
      cases el.pollable <;> rfl
    rw [hstored, decoded_of_select heap hselect]
    unfold PolledEntry.counted
    rw [if_pos hselect]
    split_ifs <;> simp_all [PollEvent.isReady]
  by_cases hhandle : el.event = .handle
  · obtain ⟨b, rfl⟩ := List.length_eq_one_iff.mp (hslots.trans (slots_of_handle hhandle))
    have hstored : (el.collect 0).1 = .silent := by
      unfold PolledEntry.collect
      rw [hhandle]
    rw [hstored, decoded_of_handle heap hhandle]
    unfold PolledEntry.counted
    rw [if_neg hselect, List.countP_singleton]
    obtain hready | hclosed | hsilent := pollDecode_cases b
    · rw [hready]
      cases isListening (σ := σ) heap el.pollable <;> rfl
    · rw [hclosed]
      rfl
    · rw [hsilent]
      rfl
  · obtain rfl : bits = [] := List.length_eq_zero_iff.mp
      (hslots.trans (slots_of_other ⟨hhandle, hselect⟩))
    have hstored : el.decoded heap [] = (el.collect 0).1 := rfl
    have hnever : (el.collect 0).1 ≠ .event := by
      rw [← hstored, decoded_of_other heap ⟨hhandle, hselect⟩]
      exact hwf.event_ne
    rw [hstored, if_neg hnever]
    unfold PolledEntry.counted
    rw [if_neg hselect]
    rfl

/-- **What the last loop counts** are the pollables with data, apart from the fd sets of curl. -/
theorem decodeFds_counts (heap : Heap σ) (revents : ℕ → PollBits)
    (before els : List PolledEntry) (hwf : ∀ el ∈ els, el.WellFormed)
    (k : ℕ) (results : List PollEvent) (hasdata : ℕ) :
    (decodeFds heap (before ++ els) revents k (collectFds before.length els).2.1 results
        hasdata).2 + (els.map fun el => (el.collect 0).1).countP PollEvent.isReady +
        ((parts revents k els).map fun part => part.1.decoded heap part.2).countP (· = .event) =
      hasdata +
        ((parts revents k els).map fun part => part.1.decoded heap part.2).countP
          PollEvent.isReady := by
  induction els generalizing before k results hasdata with
  | nil => rfl
  | cons el els ih =>
    have hel : (before ++ el :: els)[before.length]? = some el := by simp
    obtain ⟨results', hblock⟩ := decodeFds_block_counts heap hel revents
      (el.collect before.length).2.1 (collectFds (before.length + 1) els).2.1
      (fun fd h => ptr_of_mem_collect h) k results hasdata
    have hrest := ih (before ++ [el]) (fun el' h => hwf el' (List.mem_cons_of_mem _ h))
      (k + el.slots) results'
      (hasdata + el.counted ((List.range el.slots).map fun m => revents (k + m)))
    rw [List.length_append, List.length_singleton, List.append_assoc] at hrest
    have hone := counted_add_event heap (hwf el List.mem_cons_self)
      (show ((List.range el.slots).map fun m => revents (k + m)).length = el.slots by simp)
    have hfds : (collectFds before.length (el :: els)).2.1 =
        (el.collect before.length).2.1 ++ (collectFds (before.length + 1) els).2.1 := rfl
    rw [hfds, hblock, length_collect, parts]
    simp only [List.map_cons, List.countP_cons, decide_eq_true_eq]
    simp only [List.singleton_append] at hrest
    omega

section Entries

variable {entries : List PolledEntry} (hwf : ∀ el ∈ entries, el.WellFormed)
include hwf

/-- No event of an fd set is stored before the system call. -/
theorem event_not_stored : PollEvent.event ∉ entries.map fun el => (el.collect 0).1 := by
  intro hmem
  obtain ⟨el, hel, hevent⟩ := List.mem_map.mp hmem
  obtain ⟨h, _⟩ | ⟨h, _⟩ | ⟨h | h, _⟩ := stored_cases (hwf el hel) <;> rw [h] at hevent <;>
    cases hevent

/-- An answer gives a pollable the event of an fd set exactly if it is one, and there is something
for one of its descriptors. -/
theorem event_not_decoded_iff (heap : Heap σ) (revents : ℕ → PollBits) :
    PollEvent.event ∉ (parts revents 0 entries).map (fun part => part.1.decoded heap part.2) ↔
      ∀ part ∈ parts revents 0 entries, part.1.event = .select → ∀ b ∈ part.2,
        b.forCurl = false := by
  rw [List.mem_map, not_exists]
  refine forall_congr' fun part => ?_
  rw [not_and]
  refine imp_congr_right fun hpart => ?_
  obtain ⟨hel, hslots⟩ := of_mem_parts hpart
  by_cases hselect : part.1.event = .select
  · rw [decoded_of_select heap hselect]
    simp [hselect]
  · refine iff_of_true (fun hevent => ?_) (fun h => absurd h hselect)
    by_cases hhandle : part.1.event = .handle
    · obtain ⟨b, hb⟩ := List.length_eq_one_iff.mp (hslots.trans (slots_of_handle hhandle))
      rw [hb, decoded_of_handle heap hhandle] at hevent
      obtain h | h | h := pollDecode_cases b <;> rw [h] at hevent <;> revert hevent <;>
        cases isListening (σ := σ) heap part.1.pollable <;> decide
    · have hnone : part.2 = [] := List.length_eq_zero_iff.mp
        (hslots.trans (slots_of_other ⟨hhandle, hselect⟩))
      rw [hnone, decoded_of_other heap ⟨hhandle, hselect⟩] at hevent
      exact (hwf part.1 hel).event_ne hevent

end Entries

/-- If the system sets nothing, there is nothing for the fd sets. -/
theorem curl_quiet_of_pollCount {entries : List PolledEntry} {revents : ℕ → PollBits}
    (hcount : pollCount (collectFds 0 entries).2.1.length revents = 0)
    {part : PolledEntry × List PollBits} (hpart : part ∈ parts revents 0 entries) :
    ∀ b ∈ part.2, b.forCurl = false := by
  intro b hb
  obtain ⟨n, hn, rfl⟩ := (mem_parts (i := 0) hpart).2 b hb
  rw [Nat.zero_add, eq_of_pollCount_eq_zero hcount hn]
  rfl

/-- **The result and the events**: the fd sets of curl with an event are what is missing. -/
theorem pollResult_counts (ic : Riconv σ) (heap : Heap σ) (pollables : List Pollable)
    (revents : ℕ → PollBits) :
    (pollResult ic heap pollables revents).2 +
        (pollResult ic heap pollables revents).1.countP (· = .event) =
      (pollResult ic heap pollables revents).1.countP PollEvent.isReady ∧
    (.event ∉ (pollResult ic heap pollables revents).1 ↔ CurlQuiet ic heap pollables revents) := by
  have hwf := (wellFormed_prePollAll ic heap pollables).1
  unfold pollResult CurlQuiet
  generalize prePollAll ic heap pollables = first at hwf
  obtain ⟨entries, heap⟩ := first
  dsimp only at hwf ⊢
  have hcounts := collectFds_counts hwf 0
  have hstored := fst_collectFds 0 entries
  have hdecoded := decodeFds_eq_map heap revents entries (collectFds 0 entries).2.2
  have hall := decodeFds_counts heap revents [] entries hwf 0 (collectFds 0 entries).1
    (collectFds 0 entries).2.2
  have htimeOut := timeOut_eq_map entries
  have hquiet := @curl_quiet_of_pollCount entries revents
  rw [List.nil_append, List.length_nil] at hall
  rw [hdecoded.symm, ← hstored] at hall
  rw [← hstored] at hcounts
  have hnone : PollEvent.event ∉ (collectFds 0 entries).1 := hstored ▸ event_not_stored hwf
  have hnever : ∀ l : List PollEvent, .event ∉ l → l.countP (· = .event) = 0 := fun l hl =>
    List.countP_eq_zero.mpr fun e he => by
      have hne : e ≠ .event := fun heq => hl (heq ▸ he)
      simpa using hne
  -- what is stored before the system call
  have hbefore : pollCount (collectFds 0 entries).2.1.length revents = 0 →
      (collectFds 0 entries).2.2 + (collectFds 0 entries).1.countP (· = .event) =
          (collectFds 0 entries).1.countP PollEvent.isReady ∧
        (.event ∉ (collectFds 0 entries).1 ↔ ∀ part ∈ parts revents 0 entries,
          part.1.event = .select → ∀ b ∈ part.2, b.forCurl = false) := by
    intro hcount
    refine ⟨?_, iff_of_true hnone fun part hpart _ => hquiet hcount hpart⟩
    rw [hnever _ hnone, Nat.add_zero]
    exact hcounts
  by_cases hfds : (collectFds 0 entries).2.1.length = 0
  · rw [if_pos hfds]
    exact hbefore (by rw [hfds]; rfl)
  rw [if_neg hfds]
  by_cases hcount : pollCount (collectFds 0 entries).2.1.length revents = 0
  · rw [if_pos hcount]
    by_cases hdata : (collectFds 0 entries).2.2 = 0
    · rw [if_pos hdata, htimeOut]
      rw [hdata, hstored] at hcounts
      have hidle : ∀ e ∈ entries.map
          (fun el => if el.slots = 0 then (el.collect 0).1 else .timeout), e.isReady = false := by
        intro e he
        obtain ⟨el, hel, rfl⟩ := List.mem_map.mp he
        split_ifs
        · have hnot := List.countP_eq_zero.mp hcounts.symm _ (List.mem_map_of_mem hel)
          simpa using hnot
        · rfl
      have hnone' : PollEvent.event ∉
          entries.map (fun el => if el.slots = 0 then (el.collect 0).1 else .timeout) :=
        fun hmem => absurd (hidle _ hmem) (by decide)
      refine ⟨?_, iff_of_true hnone' fun part hpart _ => hquiet hcount hpart⟩
      rw [hdata, hnever _ hnone', List.countP_eq_zero.mpr fun e he => by simp [hidle e he]]
    · rw [if_neg hdata]
      exact hbefore hcount
  · rw [if_neg hcount]
    refine ⟨?_, ?_⟩
    · have hsum : ∀ D : List PollEvent × ℕ,
          D.2 + (collectFds 0 entries).1.countP PollEvent.isReady + D.1.countP (· = .event) =
              (collectFds 0 entries).2.2 + D.1.countP PollEvent.isReady →
            D.2 + D.1.countP (· = .event) = D.1.countP PollEvent.isReady := fun D hD => by omega
      exact hsum _ hall
    · rw [hdecoded]
      exact event_not_decoded_iff hwf heap revents

/-- The number that `processx_c_connection_poll()` returns is that of the events exactly if the
answer has nothing for the fd sets of curl. -/
theorem cConnectionPoll_counts_iff {ic : Riconv σ} {heap after : Heap σ}
    {pollables : List Pollable} {timeout : ℤ} {calls : List PollCall} {events : List PollEvent}
    {hasdata : ℕ} (hpoll : cConnectionPoll ic heap pollables timeout calls =
      some (.ok (events, hasdata), after)) :
    ∃ revents, pollAnswer ic heap pollables timeout calls = some (.ok revents) ∧
      (hasdata = events.countP PollEvent.isReady ↔ CurlQuiet ic heap pollables revents) := by
  unfold cConnectionPoll at hpoll
  dsimp only at hpoll
  rcases hanswer : pollAnswer ic heap pollables timeout calls with _ | ⟨msg | revents⟩ <;>
    rw [hanswer] at hpoll
  · cases hpoll
  · cases hpoll
  · simp only [Option.some.injEq, Prod.mk.injEq, Except.ok.injEq] at hpoll
    obtain ⟨hcounts, hquiet⟩ := pollResult_counts ic heap pollables revents
    rw [hpoll.1] at hcounts hquiet
    dsimp only at hcounts hquiet
    refine ⟨revents, rfl, ?_⟩
    rw [← hquiet, ← List.count_eq_zero]
    have hsame : events.countP (· = .event) = events.count .event :=
      List.countP_congr fun e _ => by simp
    omega

end Processx
