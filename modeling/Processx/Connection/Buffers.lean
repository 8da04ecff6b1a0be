import Processx.Connection.ReadLine
import Processx.Connection.Raw

/-!
# The representation of the buffers

Text reads, raw reads and polls share two buffers, each with a data size and an allocated size.
Whatever the operating system returns and `Riconv()` answers, the data sizes stay within the
allocated ones, no subtraction of unsigned sizes wraps around, and a connection at its end has an
empty raw buffer.
-/

namespace Processx

open Incremental

variable {σ : Type} {ic : Riconv σ}

/-- What is documented for one call of `Riconv()`: it stays within its input and its output room,
and an invalid character that stops it is in the input. -/
structure Riconv.Bounded (ic : Riconv σ) : Prop where
  consumed_le : ∀ st inbuf room, (ic.run st inbuf room).consumed ≤ inbuf.length
  out_le : ∀ st inbuf room, (ic.run st inbuf room).out.length ≤ room
  invalid_lt : ∀ st inbuf room, (ic.run st inbuf room).stop = .invalid →
    (ic.run st inbuf room).consumed < inbuf.length

/-- The sizes of the buffers, with what is allocated, and the end of the file. -/
structure Represented (ccon : Connection σ) : Prop where
  buffer_le : ccon.buffer.length ≤ ccon.bufferAllocatedSize
  utf8_le : ccon.utf8.length ≤ ccon.utf8AllocatedSize
  allocated : 0 < ccon.bufferAllocatedSize → 64 * 1024 ≤ ccon.utf8AllocatedSize
  unallocated : ccon.bufferAllocatedSize = 0 → ccon.utf8AllocatedSize = 0
  eof : ccon.isEof = true → ccon.isEofRaw = true ∧ ccon.buffer = []

/-- Bytes that the conversion loop takes out of the raw buffer. -/
inductive Removed
  | converted (bytes : Bytes)
  | skipped (bytes : Bytes)
  deriving DecidableEq

/-- The bytes. -/
def Removed.bytes : Removed → Bytes
  | .converted bytes => bytes
  | .skipped bytes => bytes

/-- The loop of `processx__connection_to_utf8()` with what it removes, for at most some rounds. -/
def toUtf8Traced (ic : Riconv σ) (isEofRaw : Bool) : ℕ → σ → Bytes → ℕ → Bytes →
    Option (List Removed × Bytes × Bytes × σ)
  | 0, _, _, _, _ => none
  | rounds + 1, st, inbuf, outbytesleft, out =>
    let r := ic.run st inbuf outbytesleft
    let converted := Removed.converted (inbuf.take r.consumed)
    let inbuf := inbuf.drop r.consumed
    let outbytesleft := outbytesleft - r.out.length
    let out := out ++ r.out
    match r.stop with
    | .done => some ([converted], inbuf, out, r.next)
    | .full => some ([converted], inbuf, out, r.next)
    | .invalid =>
      let skipped := Removed.skipped (inbuf.take 1)
      let inbuf := inbuf.drop 1
      if inbuf.length > 0 then
        (toUtf8Traced ic isEofRaw rounds r.next inbuf outbytesleft out).map
          fun (removed, rest) => (converted :: skipped :: removed, rest)
      else some ([converted, skipped], inbuf, out, r.next)
    | .incomplete =>
      if isEofRaw then some ([converted, .skipped inbuf], [], out, r.next)
      else some ([converted], inbuf, out, r.next)

/-- With as many rounds as there are bytes, or more, both forms of the loop end alike. What is
removed, and what is left, is the input, and the output fits into its room. -/
structure TracesTo (ic : Riconv σ) (isEofRaw : Bool) (st : σ) (inbuf : Bytes) (room : ℕ)
    (acc : Bytes) (removed : List Removed) (rest out : Bytes) (st' : σ) : Prop where
  input : removed.flatMap Removed.bytes ++ rest = inbuf
  out_le : out.length ≤ room
  ends : ∀ rounds, inbuf.length ≤ rounds →
    toUtf8Traced ic isEofRaw rounds st inbuf room acc = some (removed, rest, acc ++ out, st') ∧
      toUtf8Loop ic isEofRaw rounds st inbuf room acc = (rest, acc ++ out, st')

/-- A round that is the last one. -/
theorem TracesTo.last (hic : ic.Bounded) {isEofRaw : Bool} {st : σ} {inbuf rest : Bytes}
    {room : ℕ} {acc : Bytes} {removed : List Removed} (hne : inbuf ≠ [])
    (hinput : removed.flatMap Removed.bytes ++ rest = inbuf)
    (hround : ∀ k,
      toUtf8Traced ic isEofRaw (k + 1) st inbuf room acc =
          some (removed, rest, acc ++ (ic.run st inbuf room).out, (ic.run st inbuf room).next) ∧
        toUtf8Loop ic isEofRaw (k + 1) st inbuf room acc =
          (rest, acc ++ (ic.run st inbuf room).out, (ic.run st inbuf room).next)) :
    TracesTo ic isEofRaw st inbuf room acc removed rest (ic.run st inbuf room).out
      (ic.run st inbuf room).next := by
  refine ⟨hinput, hic.out_le st inbuf room, fun rounds h => ?_⟩
  have hpos := List.length_pos_of_ne_nil hne
  obtain ⟨k, rfl⟩ := Nat.exists_eq_succ_of_ne_zero (by omega : rounds ≠ 0)
  exact hround k

/-- A round that skips an invalid byte, with more behind it. -/
theorem TracesTo.skip (hic : ic.Bounded) {isEofRaw : Bool} {st st' : σ} {inbuf rest out : Bytes}
    {room : ℕ} {acc : Bytes} {removed : List Removed}
    (hstop : (ic.run st inbuf room).stop = .invalid)
    (hmore : 0 < ((inbuf.drop (ic.run st inbuf room).consumed).drop 1).length)
    (h : TracesTo ic isEofRaw (ic.run st inbuf room).next
      ((inbuf.drop (ic.run st inbuf room).consumed).drop 1)
      (room - (ic.run st inbuf room).out.length) (acc ++ (ic.run st inbuf room).out)
      removed rest out st') :
    TracesTo ic isEofRaw st inbuf room acc
      (.converted (inbuf.take (ic.run st inbuf room).consumed) ::
        .skipped ((inbuf.drop (ic.run st inbuf room).consumed).take 1) :: removed)
      rest ((ic.run st inbuf room).out ++ out) st' := by
  have hlt := hic.invalid_lt st inbuf room hstop
  have hout := hic.out_le st inbuf room
  refine ⟨?_, ?_, fun rounds hrounds => ?_⟩
  · rw [List.flatMap_cons, List.flatMap_cons, List.append_assoc, List.append_assoc, h.input]
    simp only [Removed.bytes]
    rw [List.take_append_drop, List.take_append_drop]
  · have hrest := h.out_le
    rw [List.length_append]
    omega
  · obtain ⟨k, rfl⟩ := Nat.exists_eq_succ_of_ne_zero (by omega : rounds ≠ 0)
    have hfewer : ((inbuf.drop (ic.run st inbuf room).consumed).drop 1).length ≤ k := by
      simp only [List.length_drop]
      omega
    obtain ⟨htraced, hloop⟩ := h.ends k hfewer
    rw [toUtf8Traced, toUtf8Loop]
    simp only [hstop, if_pos hmore, htraced, hloop, Option.map_some, List.append_assoc, and_self]

/-- The loop ends, by induction on the number of bytes. -/
theorem toUtf8Traced_spec (hic : ic.Bounded) (isEofRaw : Bool) (n : ℕ) (st : σ) (inbuf : Bytes)
    (hn : inbuf.length = n) (hne : inbuf ≠ []) (room : ℕ) (acc : Bytes) :
    ∃ removed rest out st', TracesTo ic isEofRaw st inbuf room acc removed rest out st' := by
  induction n using Nat.strong_induction_on generalizing st inbuf room acc with
  | _ n ih =>
    have hconverted : [Removed.converted (inbuf.take (ic.run st inbuf room).consumed)].flatMap
        Removed.bytes ++ inbuf.drop (ic.run st inbuf room).consumed = inbuf := by
      simp [Removed.bytes]
    cases hstop : (ic.run st inbuf room).stop with
    | done | full =>
      exact ⟨_, _, _, _, .last hic hne hconverted fun k => by
        simp [toUtf8Traced, toUtf8Loop, hstop]⟩
    | incomplete =>
      cases isEofRaw with
      | false =>
        exact ⟨_, _, _, _, .last hic hne hconverted fun k => by
          simp [toUtf8Traced, toUtf8Loop, hstop]⟩
      | true =>
        have hskipped : [Removed.converted (inbuf.take (ic.run st inbuf room).consumed),
            .skipped (inbuf.drop (ic.run st inbuf room).consumed)].flatMap Removed.bytes ++ [] =
              inbuf := by
          simp [Removed.bytes]
        exact ⟨_, _, _, _, .last hic hne hskipped fun k => by
          simp [toUtf8Traced, toUtf8Loop, hstop]⟩
    | invalid =>
      have hlt := hic.invalid_lt st inbuf room hstop
      by_cases hmore : 0 < ((inbuf.drop (ic.run st inbuf room).consumed).drop 1).length
      · have hless : ((inbuf.drop (ic.run st inbuf room).consumed).drop 1).length < n := by
          simp only [List.length_drop]
          omega
        obtain ⟨_, _, _, _, hrest⟩ := ih _ hless (ic.run st inbuf room).next _ rfl
          (List.ne_nil_of_length_pos hmore) (room - (ic.run st inbuf room).out.length)
          (acc ++ (ic.run st inbuf room).out)
        exact ⟨_, _, _, _, hrest.skip hic hstop hmore⟩
      · have hskipped : [Removed.converted (inbuf.take (ic.run st inbuf room).consumed),
            .skipped ((inbuf.drop (ic.run st inbuf room).consumed).take 1)].flatMap Removed.bytes ++
              (inbuf.drop (ic.run st inbuf room).consumed).drop 1 = inbuf := by
          simp only [List.flatMap_cons, List.flatMap_nil, Removed.bytes, List.append_nil,
            List.append_assoc]
          rw [List.take_append_drop, List.take_append_drop]
        refine ⟨_, _, _, _, .last hic hne hskipped fun k => ?_⟩
        rw [toUtf8Traced, toUtf8Loop]
        simp only [hstop, if_neg hmore, and_self]

/-- `processx__connection_to_utf8()` with what it removes from the raw buffer, for at most some
rounds. -/
def connectionToUtf8Traced (ic : Riconv σ) (rounds : ℕ) (ccon : Connection σ) :
    Option (List Removed × ℕ × Connection σ) :=
  let inbytesleft := ccon.buffer.length
  let outbytesleft := ccon.utf8AllocatedSize - ccon.utf8.length
  let ctx := ccon.iconvCtx.getD ic.open_
  if inbytesleft = 0 ∨ outbytesleft = 0 then some ([], 0, { ccon with iconvCtx := some ctx })
  else
    (toUtf8Traced ic ccon.isEofRaw rounds ctx ccon.buffer outbytesleft []).map
      fun (removed, inbuf, out, ctx) => (removed, out.length,
        { ccon with iconvCtx := some ctx, buffer := inbuf, utf8 := ccon.utf8 ++ out })

/-- The conversion loop ends, and what it has removed from the raw buffer is what it converted or
skipped. -/
def ConvertsExactly (ic : Riconv σ) (ccon : Connection σ) : Prop :=
  ∃ removed, (∀ rounds, ccon.buffer.length ≤ rounds →
      connectionToUtf8Traced ic rounds ccon = some (removed, connectionToUtf8 ic ccon)) ∧
    removed.flatMap Removed.bytes ++ (connectionToUtf8 ic ccon).2.buffer = ccon.buffer

/-- What a conversion does to a connection, in full. -/
theorem connectionToUtf8_bounds (hic : ic.Bounded) (ccon : Connection σ) :
    ∃ removed out ctx, (connectionToUtf8 ic ccon).2 =
        { ccon with
          iconvCtx := some ctx
          buffer := (connectionToUtf8 ic ccon).2.buffer
          utf8 := ccon.utf8 ++ out } ∧
      (∀ rounds, ccon.buffer.length ≤ rounds →
        connectionToUtf8Traced ic rounds ccon = some (removed, connectionToUtf8 ic ccon)) ∧
      removed.flatMap Removed.bytes ++ (connectionToUtf8 ic ccon).2.buffer = ccon.buffer ∧
      out.length ≤ ccon.utf8AllocatedSize - ccon.utf8.length := by
  by_cases hnothing : ccon.buffer.length = 0 ∨ ccon.utf8AllocatedSize - ccon.utf8.length = 0
  · have heq : connectionToUtf8 ic ccon =
        (0, { ccon with iconvCtx := some (ccon.iconvCtx.getD ic.open_) }) := by
      simp only [connectionToUtf8, if_pos hnothing]
    refine ⟨[], [], ccon.iconvCtx.getD ic.open_, ?_, fun rounds _ => ?_, ?_, Nat.zero_le _⟩
    · rw [heq, List.append_nil]
    · rw [heq]
      simp only [connectionToUtf8Traced, if_pos hnothing]
    · rw [heq]
      rfl
  · obtain ⟨removed, rest, out, ctx, hremoved, hroom, hrounds⟩ :=
      toUtf8Traced_spec hic ccon.isEofRaw _ (ccon.iconvCtx.getD ic.open_) ccon.buffer rfl
        (fun hnil => hnothing (.inl (by rw [hnil]; rfl)))
        (ccon.utf8AllocatedSize - ccon.utf8.length) []
    have heq : connectionToUtf8 ic ccon = (out.length,
        { ccon with iconvCtx := some ctx, buffer := rest, utf8 := ccon.utf8 ++ out }) := by
      simp only [connectionToUtf8, if_neg hnothing, (hrounds _ le_rfl).2, List.nil_append]
    refine ⟨removed, out, ctx, ?_, fun rounds h => ?_, ?_, hroom⟩
    · rw [heq]
    · rw [heq]
      simp only [connectionToUtf8Traced, if_neg hnothing, (hrounds rounds h).1, Option.map_some,
        List.nil_append]
    · rw [heq]
      exact hremoved

/-- A conversion takes no more bytes than there are, and writes no more than have room. -/
theorem convertsExactly (hic : ic.Bounded) (ccon : Connection σ) : ConvertsExactly ic ccon := by
  obtain ⟨removed, _, _, _, hrounds, hremoved, _⟩ := connectionToUtf8_bounds hic ccon
  exact ⟨removed, hrounds, hremoved⟩

/-- A conversion keeps the sizes of the buffers right. -/
theorem Represented.toUtf8 (hic : ic.Bounded) {ccon : Connection σ} (h : Represented ccon) :
    Represented (connectionToUtf8 ic ccon).2 := by
  obtain ⟨removed, out, ctx, heq, _, hremoved, hroom⟩ := connectionToUtf8_bounds hic ccon
  have hlength := congrArg List.length hremoved
  rw [List.length_append] at hlength
  have hbuffer := h.buffer_le
  have hutf8 := h.utf8_le
  rw [heq]
  refine ⟨?_, ?_, h.allocated, h.unallocated, fun heof => ?_⟩
  · dsimp only
    omega
  · dsimp only
    rw [List.length_append]
    omega
  · obtain ⟨hraw, hnil⟩ := h.eof heof
    rw [hnil] at hremoved
    exact ⟨hraw, (List.append_eq_nil_iff.mp hremoved).2⟩

/-- So does one of new bytes. -/
theorem Represented.convertNew (hic : ic.Bounded) {ccon : Connection σ} (h : Represented ccon) :
    Represented (convertNew ic ccon).2 := by
  unfold Processx.convertNew
  split
  · exact h.toUtf8 hic
  · exact h

/-- So does the end of the file. -/
theorem Represented.markEofRaw {ccon : Connection σ} (h : Represented ccon) :
    Represented (markEofRaw ccon) := by
  refine ⟨h.buffer_le, h.utf8_le, h.allocated, h.unallocated, fun heof => ⟨rfl, ?_⟩⟩
  simp only [Processx.markEofRaw, Bool.or_eq_true, Bool.and_eq_true, List.isEmpty_iff] at heof ⊢
  exact heof.elim (fun heof => (h.eof heof).2) And.right

/-- So does text that is handed out. -/
theorem Represented.dropUtf8 {ccon : Connection σ} (h : Represented ccon) (bytes : ℕ) :
    Represented (dropUtf8 ccon bytes) := by
  refine ⟨h.buffer_le, ?_, h.allocated, h.unallocated, h.eof⟩
  have hle := h.utf8_le
  simp only [Processx.dropUtf8, List.length_drop]
  omega

/-- A connection that is about to read gets its buffers. -/
theorem Represented.alloc {ccon ccon' : Connection σ} (h : Represented ccon)
    (hccon : ccon' = if ccon.bufferAllocatedSize = 0 then connectionAlloc ccon else ccon) :
    Represented ccon' ∧ ccon'.buffer = ccon.buffer ∧ ccon'.utf8 = ccon.utf8 ∧
      ccon'.isEofRaw = ccon.isEofRaw := by
  subst hccon
  split
  · rename_i hzero
    have hbuffer : ccon.buffer = [] := List.length_eq_zero_iff.mp (by have := h.buffer_le; omega)
    have hutf8 : ccon.utf8 = [] := List.length_eq_zero_iff.mp (by
      have := h.utf8_le
      have := h.unallocated hzero
      omega)
    refine ⟨⟨?_, ?_, ?_, ?_, fun heof => ⟨(h.eof heof).1, rfl⟩⟩, hbuffer.symm, hutf8.symm, rfl⟩ <;>
      simp [connectionAlloc]
  · exact ⟨h, rfl, rfl, rfl⟩

/-- New bytes go into the room behind the raw buffer. -/
theorem Represented.append {ccon : Connection σ} (h : Represented ccon) {bytes : Bytes}
    (hroom : bytes.length ≤ ccon.bufferAllocatedSize - ccon.buffer.length)
    (heof : ccon.isEof = true → bytes = []) :
    Represented { ccon with buffer := ccon.buffer ++ bytes } := by
  refine ⟨?_, h.utf8_le, h.allocated, h.unallocated, fun hset => ⟨(h.eof hset).1, ?_⟩⟩
  · have hle := h.buffer_le
    dsimp only
    rw [List.length_append]
    omega
  · dsimp only
    rw [(h.eof hset).2, heof hset, List.append_nil]

/-- What is read fits into the raw buffer. -/
theorem Os.length_read_le (os : Os) (todo : ℕ) (bytes : Bytes) (os' : Os)
    (h : os.read todo = (.bytes bytes, os')) : bytes.length ≤ todo := by
  unfold Os.read at h
  split at h
  · cases h
    exact Nat.zero_le _
  · split at h
    · cases h
      assumption
    · cases h
      rw [List.length_take]
      exact Nat.min_le_left _ _
  · cases h
  · cases h
    exact Nat.zero_le _
  · cases h
  · cases h

/-- A connection that asks the operating system for bytes is not at its end. -/
theorem Represented.opened {ccon ccon' : Connection σ} (h : Represented ccon)
    (hend : ¬(ccon.isEofRaw = true ∧ ccon.buffer.length = 0))
    (hccon : ccon' = if ccon.bufferAllocatedSize = 0 then connectionAlloc ccon else ccon) :
    Represented ccon' ∧ ccon'.isEof = false := by
  obtain ⟨halloc, hbuffer, _, hraw⟩ := h.alloc hccon
  refine ⟨halloc, ?_⟩
  by_contra hset
  obtain ⟨hset, hnil⟩ := halloc.eof (by simpa using hset)
  exact hend ⟨hraw ▸ hset, by rw [← hbuffer, hnil]; rfl⟩

/-- The raw buffer with the bytes that were read. -/
theorem Represented.filled {ccon : Connection σ} (h : Represented ccon) (hopen : ccon.isEof = false)
    {bytes : Bytes} (hroom : bytes.length ≤ ccon.bufferAllocatedSize - ccon.buffer.length) :
    Represented
      { (if bytes.length = 0 then Processx.markEofRaw ccon else ccon) with
        buffer :=
          (if bytes.length = 0 then Processx.markEofRaw ccon else ccon).buffer ++ bytes } := by
  split
  · rename_i hnil
    exact h.markEofRaw.append (by omega) fun _ => List.length_eq_zero_iff.mp hnil
  · refine h.append hroom fun hset => ?_
    rw [hopen] at hset
    cases hset

/-- So does a read. -/
theorem Represented.read (hic : ic.Bounded) {ccon : Connection σ} (h : Represented ccon) (os : Os) :
    Represented (connectionRead ic ccon os).2.1 := by
  unfold connectionRead
  by_cases hend : ccon.isEofRaw = true ∧ ccon.buffer.length = 0
  · rw [if_pos hend]
    dsimp only
    split
    · exact ⟨h.buffer_le, h.utf8_le, h.allocated, h.unallocated,
        fun _ => ⟨hend.1, List.length_eq_zero_iff.mp hend.2⟩⟩
    · exact h
  rw [if_neg hend]
  obtain ⟨halloc, hopen⟩ := h.opened hend rfl
  generalize (if ccon.bufferAllocatedSize = 0 then connectionAlloc ccon else ccon) = ccon₁ at *
  dsimp only
  split
  · exact halloc.toUtf8 hic
  have hle := Os.length_read_le os (ccon₁.bufferAllocatedSize - ccon₁.buffer.length)
  generalize os.read (ccon₁.bufferAllocatedSize - ccon₁.buffer.length) = answer at hle ⊢
  obtain ⟨bytes | _ | _ | _, os'⟩ := answer
  · exact (halloc.filled hopen (hle bytes os' rfl)).convertNew hic
  · exact halloc.convertNew hic
  · exact halloc.markEofRaw.convertNew hic
  · exact halloc

/-- So does a read that is made under some condition. -/
theorem Represented.readIf (hic : ic.Bounded) {ccon : Connection σ} (h : Represented ccon) (os : Os)
    (p : Prop) [Decidable p] :
    Represented (if p then connectionRead ic ccon os else (.ok 0, ccon, os)).2.1 := by
  split
  · exact h.read hic os
  · exact h

/-- A conversion adds to the UTF-8 buffer. -/
theorem connectionToUtf8_extends (hic : ic.Bounded) (ccon : Connection σ) :
    ccon.utf8 <+: (connectionToUtf8 ic ccon).2.utf8 := by
  obtain ⟨_, out, _, heq, _⟩ := connectionToUtf8_bounds hic ccon
  rw [heq]
  exact List.prefix_append _ _

/-- A conversion adds to the text. -/
theorem convertNew_extends (hic : ic.Bounded) (ccon : Connection σ) :
    ccon.utf8 <+: (convertNew ic ccon).2.utf8 := by
  unfold convertNew
  split
  · exact connectionToUtf8_extends hic ccon
  · exact List.prefix_rfl

/-- So does a read, and it takes nothing out. -/
theorem Represented.read_extends (hic : ic.Bounded) {ccon : Connection σ} (h : Represented ccon)
    (os : Os) : ccon.utf8 <+: (connectionRead ic ccon os).2.1.utf8 := by
  unfold connectionRead
  split
  · dsimp only
    split <;> exact List.prefix_rfl
  obtain ⟨-, -, hutf8, -⟩ := h.alloc rfl
  generalize (if ccon.bufferAllocatedSize = 0 then connectionAlloc ccon else ccon) = ccon₁ at *
  rw [← hutf8]
  dsimp only
  split
  · exact connectionToUtf8_extends hic ccon₁
  generalize os.read (ccon₁.bufferAllocatedSize - ccon₁.buffer.length) = answer
  obtain ⟨bytes | _ | _ | _, os'⟩ := answer
  · dsimp only
    split
    · exact convertNew_extends hic
        { Processx.markEofRaw ccon₁ with buffer := ccon₁.buffer ++ bytes }
    · exact convertNew_extends hic { ccon₁ with buffer := ccon₁.buffer ++ bytes }
  · exact convertNew_extends hic ccon₁
  · exact convertNew_extends hic (Processx.markEofRaw ccon₁)
  · exact List.prefix_rfl

/-- The loop of `processx__connection_read_until_newline()`, for at most some rounds: the result,
`none` while the loop is running, and the connection. In raw mode the loop need not end. -/
def untilNewlineLoop (ic : Riconv σ) : ℕ → Connection σ → Os → ℕ → ℕ →
    Option (Except String (Option ℕ)) × Connection σ × Os
  | 0, ccon, os, _, _ => (none, ccon, os)
  | rounds + 1, ccon, os, ptr, end_ =>
    let ptr := ((((ccon.utf8.take end_).drop ptr).idxOf? lineFeed).map (ptr + ·)).getD end_
    if ptr < end_ then (some (.ok (some ptr)), ccon, os)
    else if ccon.isEof then (some (.ok none), ccon, os)
    else
      let ccon := if ccon.utf8.length ≥ ccon.utf8AllocatedSize - 8 then connectionRealloc ccon
        else ccon
      match connectionRead ic ccon os with
      | (.error msg, ccon, os) => (some (.error msg), ccon, os)
      | (.ok newBytes, ccon, os) =>
        if newBytes = 0 then (some (.ok none), ccon, os)
        else untilNewlineLoop ic rounds ccon os ptr end_

/-- `processx__connection_read_until_newline()`, for at most some rounds. -/
def readUntilNewline (ic : Riconv σ) (rounds : ℕ) (ccon : Connection σ) (os : Os) :
    Option (Except String (Option ℕ)) × Connection σ × Os :=
  match if ccon.utf8.length = 0 then connectionRead ic ccon os else (.ok 0, ccon, os) with
  | (.error msg, ccon, os) => (some (.error msg), ccon, os)
  | (.ok _, ccon, os) =>
    if ccon.utf8.length = 0 then (some (.ok none), ccon, os)
    else untilNewlineLoop ic rounds ccon os 0 ccon.utf8.length

/-- `processx_connection_read_lines()`, for at most some rounds of its loop that reads. -/
def readLinesWithin (ic : Riconv σ) (rounds : ℕ) (ccon : Connection σ) (os : Os) (nlines : ℤ) :
    Option (Except String (List Bytes)) × Connection σ × Os :=
  let maxlines := if nlines < 0 then 1000 else nlines
  match checkValidConn ccon with
  | .error msg => (some (.error msg), ccon, os)
  | .ok () =>
    match readUntilNewline ic rounds ccon os with
    | (none, ccon, os) => (none, ccon, os)
    | (some (.error msg), ccon, os) => (some (.error msg), ccon, os)
    | (some (.ok newline), ccon, os) =>
      match takeText ccon.utf8 (countLines ccon.utf8 maxlines.toNat newline)
          (unterminatedEnd ccon) with
      | .error msg => (some (.error msg), ccon, os)
      | .ok (result, taken) => (some (.ok result), dropUtf8 ccon taken, os)

/-- `processx_c_connection_read_line()`, for at most some rounds of its loop that reads. -/
def readLineWithin (ic : Riconv σ) (rounds : ℕ) (before : UInt8) (ccon : Connection σ) (os : Os)
    (line : LineBuffer) : Option (LineAnswer × LineBuffer) × Connection σ × Os :=
  match line.linep, line.linecapp with
  | none, _ => (some (.throw "cannot read line, linep cannot be a null pointer", line), ccon, os)
  | some _, none =>
    (some (.throw "cannot read line, linecapp cannot be a null pointer", line), ccon, os)
  | some linep, some linecapp =>
    if ccon.isEof then (some (.ret (-1), line), ccon, os)
    else
      match readUntilNewline ic rounds ccon os with
      | (none, ccon, os) => (none, ccon, os)
      | (some (.error msg), ccon, os) => (some (.throw msg, line), ccon, os)
      | (some (.ok newline), ccon, os) =>
        let (answer, line, ccon) := serveLine before ccon newline linep linecapp
        (some (answer, line), ccon, os)

/-- The reads of the loop are those of the loop with a bound that is high enough for text. -/
theorem readUntilNewlineLoop_eq (ic : Riconv σ) (rounds : ℕ) (ccon : Connection σ) (os : Os)
    (ptr end_ : ℕ) :
    readUntilNewlineLoop ic rounds ccon os ptr end_ =
      ((untilNewlineLoop ic rounds ccon os ptr end_).1.getD (.ok none),
        (untilNewlineLoop ic rounds ccon os ptr end_).2) := by
  induction rounds generalizing ccon os ptr with
  | zero => rfl
  | succ rounds ih =>
    rw [readUntilNewlineLoop, untilNewlineLoop]
    dsimp only
    generalize ((((ccon.utf8.take end_).drop ptr).idxOf? lineFeed).map (ptr + ·)).getD end_ = ptr'
    generalize connectionRead ic (if ccon.utf8.length ≥ ccon.utf8AllocatedSize - 8 then
      connectionRealloc ccon else ccon) os = answer
    obtain ⟨msg | newBytes, ccon', os'⟩ := answer <;> dsimp only <;> split_ifs <;>
      first | rfl | exact ih ccon' os' ptr'

/-- For some number of rounds the two forms of the search agree, if the loop has ended by then. -/
theorem connectionReadUntilNewline_eq (ic : Riconv σ) (ccon : Connection σ) (os : Os) :
    ∃ rounds, connectionReadUntilNewline ic ccon os =
      ((readUntilNewline ic rounds ccon os).1.getD (.ok none),
        (readUntilNewline ic rounds ccon os).2) := by
  unfold connectionReadUntilNewline readUntilNewline
  generalize (if ccon.utf8.length = 0 then connectionRead ic ccon os else (.ok 0, ccon, os)) =
    answer
  obtain ⟨msg | n, ccon₁, os₁⟩ := answer
  · exact ⟨0, rfl⟩
  · dsimp only
    by_cases hempty : ccon₁.utf8.length = 0
    · exact ⟨0, by rw [if_pos hempty, if_pos hempty]; rfl⟩
    · refine ⟨readRounds ccon₁ os₁, ?_⟩
      rw [if_neg hempty, if_neg hempty]
      exact readUntilNewlineLoop_eq ic _ _ _ _ _

/-- So do the two forms of `processx_connection_read_lines()`. -/
theorem connectionReadLines_eq (ic : Riconv σ) (ccon : Connection σ) (os : Os) (nlines : ℤ) :
    ∃ rounds, ∀ result, (readLinesWithin ic rounds ccon os nlines).1 = some result →
      connectionReadLines ic ccon os nlines =
        (result, (readLinesWithin ic rounds ccon os nlines).2) := by
  obtain ⟨rounds, heq⟩ := connectionReadUntilNewline_eq ic ccon os
  refine ⟨rounds, fun result hresult => ?_⟩
  unfold connectionReadLines connectionFindLines
  unfold readLinesWithin at hresult ⊢
  rw [heq]
  cases hvalid : checkValidConn ccon with
  | error msg =>
    rw [hvalid] at hresult
    cases hresult
    rfl
  | ok _ =>
    rw [hvalid] at hresult
    dsimp only at hresult ⊢
    generalize readUntilNewline ic rounds ccon os = answer at hresult ⊢
    obtain ⟨_ | _ | newline, ccon', os'⟩ := answer
    · cases hresult
    · cases hresult
      rfl
    · simp only [Option.getD_some] at hresult ⊢
      generalize takeText ccon'.utf8 _ _ = taken at hresult ⊢
      obtain _ | ⟨strings, bytes⟩ := taken <;> cases hresult <;> rfl

/-- And those of `processx_c_connection_read_line()`. -/
theorem cConnectionReadLine_eq (ic : Riconv σ) (before : UInt8) (ccon : Connection σ) (os : Os)
    (line : LineBuffer) :
    ∃ rounds, ∀ result, (readLineWithin ic rounds before ccon os line).1 = some result →
      cConnectionReadLine ic before ccon os line =
        (result.1, result.2, (readLineWithin ic rounds before ccon os line).2) := by
  obtain ⟨rounds, heq⟩ := connectionReadUntilNewline_eq ic ccon os
  refine ⟨rounds, fun result hresult => ?_⟩
  unfold cConnectionReadLine
  unfold readLineWithin at hresult ⊢
  rw [heq]
  obtain ⟨_ | linep, _ | linecapp⟩ := line
  · cases hresult
    rfl
  · cases hresult
    rfl
  · cases hresult
    rfl
  · dsimp only at hresult ⊢
    by_cases heof : ccon.isEof = true
    · rw [if_pos heof] at hresult ⊢
      rw [if_pos heof]
      cases hresult
      rfl
    · rw [if_neg heof] at hresult ⊢
      rw [if_neg heof]
      generalize readUntilNewline ic rounds ccon os = answer at hresult ⊢
      obtain ⟨_ | _ | newline, ccon', os'⟩ := answer <;> cases hresult <;> rfl

/-- Where the scan of the loop stops, at first. -/
theorem scan_eq (utf8 : Bytes) :
    ((((utf8.take utf8.length).drop 0).idxOf? lineFeed).map (0 + ·)).getD utf8.length =
      (findNewline utf8 0).getD utf8.length := by
  rw [List.take_length]
  unfold findNewline
  by_cases hnil : utf8.length = 0
  · rw [if_pos hnil, List.length_eq_zero_iff.mp hnil]
    rfl
  · rw [if_neg hnil]

/-- A line feed that is found is in the buffer. -/
theorem lt_of_findNewline {utf8 : Bytes} {k : ℕ} (h : findNewline utf8 0 = some k) :
    k < utf8.length :=
  (List.getElem?_eq_some_iff.mp (getElem?_of_findNewline h)).1

/-- A loop that starts with a line feed in the buffer finds it at once. -/
theorem untilNewlineLoop_found (ic : Riconv σ) (rounds : ℕ) {ccon : Connection σ} (os : Os) {k : ℕ}
    (h : findNewline ccon.utf8 0 = some k) :
    untilNewlineLoop ic (rounds + 1) ccon os 0 ccon.utf8.length =
      (some (.ok (some k)), ccon, os) := by
  rw [untilNewlineLoop, scan_eq, h]
  exact if_pos (lt_of_findNewline h)

/-- If there is none then it goes on behind the end. -/
theorem untilNewlineLoop_skip (ic : Riconv σ) (rounds : ℕ) {ccon : Connection σ} (os : Os)
    (h : findNewline ccon.utf8 0 = none) :
    untilNewlineLoop ic (rounds + 1) ccon os 0 ccon.utf8.length =
      untilNewlineLoop ic (rounds + 1) ccon os ccon.utf8.length ccon.utf8.length := by
  have hbehind : (ccon.utf8.take ccon.utf8.length).drop ccon.utf8.length = [] :=
    List.drop_eq_nil_of_le (List.length_take_le _ _)
  rw [untilNewlineLoop, untilNewlineLoop, scan_eq, h, hbehind]
  rfl

/-- Behind the end no line feed is found any more. -/
theorem untilNewlineLoop_passed (ic : Riconv σ) (rounds end_ : ℕ) (ccon : Connection σ) (os : Os)
    {newline : Option ℕ}
    (h : (untilNewlineLoop ic rounds ccon os end_ end_).1 = some (.ok newline)) :
    newline = none := by
  refine readUntilNewlineLoop_passed ic rounds end_ ccon os ?_
  rw [readUntilNewlineLoop_eq, h]
  rfl

/-- What is returned is the first line feed of the UTF-8 buffer, or nothing. -/
theorem readUntilNewline_newline (ic : Riconv σ) {rounds : ℕ} {ccon ccon' : Connection σ}
    {os os' : Os} {newline : Option ℕ}
    (h : readUntilNewline ic rounds ccon os = (some (.ok newline), ccon', os')) :
    newline = none ∨ newline = findNewline ccon'.utf8 0 := by
  unfold readUntilNewline at h
  generalize (if ccon.utf8.length = 0 then connectionRead ic ccon os else (.ok 0, ccon, os)) =
    answer at h
  obtain ⟨msg | n, ccon₁, os₁⟩ := answer
  · cases h
  · dsimp only at h
    by_cases hempty : ccon₁.utf8.length = 0
    · rw [if_pos hempty] at h
      cases h
      exact .inl rfl
    rw [if_neg hempty] at h
    cases rounds with
    | zero => cases h
    | succ rounds =>
      cases hfound : findNewline ccon₁.utf8 0 with
      | some k =>
        rw [untilNewlineLoop_found ic rounds os₁ hfound] at h
        cases h
        exact .inr hfound.symm
      | none =>
        rw [untilNewlineLoop_skip ic rounds os₁ hfound] at h
        exact .inl (untilNewlineLoop_passed ic _ _ _ _ (congrArg Prod.fst h))

/-- A call that reads a connection, in any mode, or polls it. -/
inductive BufferOp
  | readChars (nchars : ℤ)
  | cReadChars (nbyte : ℕ)
  | readBytes (nbytes : ℤ)
  | readLines (nlines : ℤ)
  | readLine (before : UInt8) (line : LineBuffer)
  | poll
  deriving DecidableEq

/-- What a call leaves, for at most some rounds of its loop that reads, and whether there can be
another call: it has returned or thrown. -/
def BufferOp.run (ic : Riconv σ) (rounds : ℕ) (op : BufferOp) (ccon : Connection σ) (os : Os) :
    Bool × Connection σ × Os :=
  match op with
  | .readChars nchars => (true, (connectionReadChars ic ccon os nchars).2)
  | .cReadChars nbyte => (true, (cConnectionReadChars ic ccon os nbyte).2)
  | .readBytes nbytes => (true, (connectionReadBytes ic ccon os nbytes).2)
  | .readLines nlines =>
    ((readLinesWithin ic rounds ccon os nlines).1.isSome,
      (readLinesWithin ic rounds ccon os nlines).2)
  | .readLine before line =>
    ((readLineWithin ic rounds before ccon os line).1.any fun answer => answer.1 ≠ .crash,
      (readLineWithin ic rounds before ccon os line).2)
  | .poll => (true, (prePollConnection ic ccon).2, os)

/-- A connection and the operating system, as long as there can be calls. -/
structure BufferRun (σ : Type) where
  live : Bool
  ccon : Connection σ
  os : Os

/-- A call, with the rounds that it is given. -/
def BufferRun.step (ic : Riconv σ) (s : BufferRun σ) (call : ℕ × BufferOp) : BufferRun σ :=
  if s.live then
    let (live, ccon, os) := call.2.run ic call.1 s.ccon s.os
    ⟨live, ccon, os⟩
  else s

/-- A sequence of calls on a fresh connection. -/
def bufferRun (ic : Riconv σ) (osHandle : ℤ) (encoding : String) (os : Os)
    (calls : List (ℕ × BufferOp)) : BufferRun σ :=
  calls.foldl (BufferRun.step ic) ⟨true, cConnectionCreateEncoding osHandle encoding, os⟩

/-- A connection with a larger UTF-8 buffer, where this one is almost full. -/
theorem Represented.grow {ccon : Connection σ} (h : Represented ccon) :
    Represented (if ccon.utf8.length ≥ ccon.utf8AllocatedSize - 8 then connectionRealloc ccon
      else ccon) := by
  split
  · have hutf8 := h.utf8_le
    have hallocated := h.allocated
    have hunallocated := h.unallocated
    refine ⟨h.buffer_le, ?_, fun hpos => ?_, fun hzero => ?_, h.eof⟩
    · simp only [connectionRealloc]
      split <;> omega
    · have := hallocated hpos
      simp only [connectionRealloc]
      split <;> omega
    · simp only [connectionRealloc, hunallocated hzero]
      rfl
  · exact h

/-- A larger buffer has the same text. -/
theorem grow_utf8 (ccon : Connection σ) :
    (if ccon.utf8.length ≥ ccon.utf8AllocatedSize - 8 then connectionRealloc ccon else ccon).utf8 =
      ccon.utf8 := by
  split <;> rfl

/-- The loop that reads until there is a line feed keeps the representation in each round. -/
theorem Represented.untilNewlineLoop (hic : ic.Bounded) {ccon : Connection σ}
    (h : Represented ccon) (rounds : ℕ) (os : Os) (ptr end_ : ℕ) :
    Represented (untilNewlineLoop ic rounds ccon os ptr end_).2.1 := by
  have hkeeps : Represented (readUntilNewlineLoop ic rounds ccon os ptr end_).2.1 :=
    readUntilNewlineLoop_keeps (P := fun ccon _ => Represented ccon)
      (fun _ os h => h.grow.read hic os) rounds ptr end_ h
  rwa [readUntilNewlineLoop_eq] at hkeeps

/-- The look for a line feed keeps the sizes right. -/
theorem Represented.readUntilNewline (hic : ic.Bounded) {ccon : Connection σ}
    (h : Represented ccon) (rounds : ℕ) (os : Os) :
    Represented (readUntilNewline ic rounds ccon os).2.1 := by
  have hstart := h.readIf hic os (ccon.utf8.length = 0)
  unfold Processx.readUntilNewline
  generalize (if ccon.utf8.length = 0 then connectionRead ic ccon os else (.ok 0, ccon, os)) =
    answer at hstart ⊢
  obtain ⟨msg | n, ccon₁, os₁⟩ := answer
  · exact hstart
  · dsimp only at hstart ⊢
    split
    · exact hstart
    · exact hstart.untilNewlineLoop hic _ _ _ _

/-- So does the start of a poll. -/
theorem Represented.prePoll (hic : ic.Bounded) {ccon : Connection σ} (h : Represented ccon) :
    Represented (prePollConnection ic ccon).2 := by
  unfold prePollConnection
  dsimp only
  split_ifs <;> first | exact h | exact h.toUtf8 hic

/-- So do bytes that are handed out. -/
theorem Represented.dropRaw {ccon : Connection σ} (h : Represented ccon) (bytes : ℕ) :
    Represented { ccon with buffer := ccon.buffer.drop bytes } := by
  refine ⟨?_, h.utf8_le, h.allocated, h.unallocated, fun heof => ⟨(h.eof heof).1, ?_⟩⟩
  · have hle := h.buffer_le
    dsimp only
    rw [List.length_drop]
    omega
  · dsimp only
    rw [(h.eof heof).2, List.drop_nil]

/-- So does a read of bytes. -/
theorem Represented.readBytes (hic : ic.Bounded) {ccon : Connection σ} (h : Represented ccon)
    (os : Os) (nbytes : ℤ) : Represented (connectionReadBytes ic ccon os nbytes).2.1 := by
  unfold connectionReadBytes
  cases checkValidConn ccon with
  | error msg => exact h
  | ok _ =>
    have hraw : Represented { ccon with rawMode := true } :=
      ⟨h.buffer_le, h.utf8_le, h.allocated, h.unallocated, h.eof⟩
    have hstart := hraw.readIf hic os (ccon.buffer.length = 0 ∧ (!ccon.isEofRaw) = true)
    dsimp only
    generalize (if ccon.buffer.length = 0 ∧ (!ccon.isEofRaw) = true then
      connectionRead ic { ccon with rawMode := true } os
      else (.ok 0, { ccon with rawMode := true }, os)) = answer at hstart ⊢
    obtain ⟨msg | n, ccon₁, os₁⟩ := answer
    · exact hstart
    · dsimp only at hstart ⊢
      split
      · rename_i hend
        have hended : Represented { ccon₁ with isEof := true } :=
          ⟨hstart.buffer_le, hstart.utf8_le, hstart.allocated, hstart.unallocated,
            fun _ => ⟨hend.1, List.length_eq_zero_iff.mp hend.2⟩⟩
        exact hended.dropRaw _
      · exact hstart.dropRaw _

/-- So does a look for characters. -/
theorem Represented.findChars (hic : ic.Bounded) {ccon : Connection σ} (h : Represented ccon)
    (os : Os) (maxchars maxbytes : ℤ) :
    Represented (connectionFindChars ic ccon os maxchars maxbytes).2.1 :=
  connectionFindChars_keeps (P := fun ccon _ => Represented ccon)
    (fun _ os h _ => h.read hic os) h maxchars maxbytes

/-- So does a read of characters. -/
theorem Represented.readChars (hic : ic.Bounded) {ccon : Connection σ} (h : Represented ccon)
    (os : Os) (nchars : ℤ) : Represented (connectionReadChars ic ccon os nchars).2.1 := by
  have hstate := h.findChars hic os nchars (-1)
  unfold connectionReadChars
  generalize connectionFindChars ic ccon os nchars (-1) = answer at hstate ⊢
  obtain ⟨_ | bytes, ccon', os'⟩ := answer
  · exact hstate
  · dsimp only at hstate ⊢
    cases mkCharLenCE ccon'.utf8 (toInt bytes) with
    | error msg => exact hstate
    | ok chars => exact hstate.dropUtf8 bytes

/-- So does one of the C API. -/
theorem Represented.cReadChars (hic : ic.Bounded) {ccon : Connection σ} (h : Represented ccon)
    (os : Os) (nbyte : ℕ) : Represented (cConnectionReadChars ic ccon os nbyte).2.1 := by
  unfold cConnectionReadChars
  split
  · exact h
  · have hstate := h.findChars hic os (-1) nbyte
    generalize connectionFindChars ic ccon os (-1) nbyte = answer at hstate ⊢
    obtain ⟨_ | bytes, ccon', os'⟩ := answer
    · exact hstate
    · exact hstate.dropUtf8 bytes

/-- So does a read of lines. -/
theorem Represented.readLines (hic : ic.Bounded) {ccon : Connection σ} (h : Represented ccon)
    (rounds : ℕ) (os : Os) (nlines : ℤ) :
    Represented (readLinesWithin ic rounds ccon os nlines).2.1 := by
  unfold readLinesWithin
  cases checkValidConn ccon with
  | error msg => exact h
  | ok _ =>
    have hstate := h.readUntilNewline hic rounds os
    dsimp only
    generalize Processx.readUntilNewline ic rounds ccon os = answer at hstate ⊢
    obtain ⟨_ | _ | newline, ccon', os'⟩ := answer
    · exact hstate
    · exact hstate
    · dsimp only at hstate ⊢
      generalize takeText ccon'.utf8 _ _ = taken
      obtain _ | ⟨strings, bytes⟩ := taken
      · exact hstate
      · exact hstate.dropUtf8 bytes

/-- So does a read of one line. -/
theorem Represented.readLine (hic : ic.Bounded) {ccon : Connection σ} (h : Represented ccon)
    (rounds : ℕ) (before : UInt8) (os : Os) (line : LineBuffer) :
    Represented (readLineWithin ic rounds before ccon os line).2.1 := by
  unfold readLineWithin
  obtain ⟨_ | linep, _ | linecapp⟩ := line
  · exact h
  · exact h
  · exact h
  · dsimp only
    by_cases heof : ccon.isEof = true
    · rw [if_pos heof]
      exact h
    · rw [if_neg heof]
      have hstate := h.readUntilNewline hic rounds os
      generalize Processx.readUntilNewline ic rounds ccon os = answer at hstate ⊢
      obtain ⟨_ | _ | newline, ccon', os'⟩ := answer
      · exact hstate
      · exact hstate
      · obtain ⟨taken, htaken⟩ := serveLine_utf8 before ccon' newline linep linecapp
        dsimp only at hstate ⊢
        rw [htaken]
        exact hstate.dropUtf8 taken

/-- Each call keeps the representation, also one that throws or does not return. -/
theorem BufferOp.represented (hic : ic.Bounded) (op : BufferOp) (rounds : ℕ) {ccon : Connection σ}
    (h : Represented ccon) (os : Os) : Represented (op.run ic rounds ccon os).2.1 := by
  cases op with
  | readChars nchars => exact h.readChars hic os nchars
  | cReadChars nbyte => exact h.cReadChars hic os nbyte
  | readBytes nbytes => exact h.readBytes hic os nbytes
  | readLines nlines => exact h.readLines hic rounds os nlines
  | readLine before line => exact h.readLine hic rounds before os line
  | poll => exact h.prePoll hic

/-- A new connection has no buffers, and their sizes are right. -/
theorem represented_create (osHandle : ℤ) (encoding : String) :
    Represented (cConnectionCreateEncoding osHandle encoding : Connection σ) := by
  refine ⟨le_rfl, le_rfl, fun hpos => ?_, fun _ => rfl, fun heof => ?_⟩
  · cases hpos
  · cases heof

/-- A conversion that follows a decoder is within these bounds. -/
theorem Riconv.Follows.bounded {d : Decoder σ UInt8 UInt8} (hic : ic.Follows d) : ic.Bounded := by
  refine ⟨fun st inbuf room => ?_, fun st inbuf room => ?_, fun st inbuf room hstop => ?_⟩ <;>
    have hsound := d.convert_sound room st inbuf
  · rw [hic]
    exact hsound.consumed_le
  · rw [hic]
    exact hsound.out_le
  · rw [hic] at hstop ⊢
    have hne := Decoder.ne_nil_of_head_invalid (hsound.invalid hstop)
    rw [ne_eq, List.drop_eq_nil_iff] at hne
    omega

/-- A call keeps the representation, or there is none. -/
theorem BufferRun.step_represented (hic : ic.Bounded) {s : BufferRun σ} (h : Represented s.ccon)
    (call : ℕ × BufferOp) : Represented (s.step ic call).ccon := by
  unfold BufferRun.step
  split
  · exact call.2.represented hic call.1 h s.os
  · exact h

/-- The sizes are right after any calls. -/
theorem bufferRun_represented (hic : ic.Bounded) (osHandle : ℤ) (encoding : String) (os : Os)
    (calls : List (ℕ × BufferOp)) : Represented (bufferRun ic osHandle encoding os calls).ccon := by
  have hfrom (s : BufferRun σ) (h : Represented s.ccon) :
      Represented (calls.foldl (BufferRun.step ic) s).ccon := by
    induction calls generalizing s with
    | nil => exact h
    | cons call calls ih => exact ih _ (BufferRun.step_represented hic h call)
  exact hfrom _ (represented_create osHandle encoding)

end Processx
