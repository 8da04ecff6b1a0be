import Processx.Connection.Ready
import Processx.Connection.Buffers

/-!
# Reading to the end

A call that reads from a connection brings it closer to its end, as long as it does not throw:
it returns something, or it gets something out of the operating system, or the end of the file is
seen. So a connection that is read again and again comes to its end, or to a string that R
refuses. The bytes that are still to come have to be counted in several places: they may be
returned, or only moved, or only be converted.
-/

namespace Processx

open Incremental

variable {σ : Type} {ic : Riconv σ} {d : Decoder σ UInt8 UInt8}

/-- What the operating system has left: bytes and results. -/
def Os.left (os : Os) : ℕ := os.stream.length + os.items.length

/-- What is left to do before a connection is at its end, without its text: raw bytes to convert,
results to come, and the two flags for the end of the file. -/
def unread (ccon : Connection σ) (os : Os) : ℕ :=
  ccon.buffer.length + os.stream.length + os.left + (!ccon.isEofRaw).toNat + (!ccon.isEof).toNat

/-- The results are those of a descriptor that nobody can write to: bytes, and the end of the
file. -/
def Os.Final (os : Os) : Prop := ∀ item ∈ os.items, item ≠ .eagain ∧ item ≠ .error

instance (os : Os) : Decidable os.Final :=
  inferInstanceAs (Decidable (∀ item ∈ os.items, item ≠ .eagain ∧ item ≠ .error))

/-- A `read()` from such a descriptor. -/
theorem Os.Final.read {os : Os} (h : os.Final) (todo : ℕ) :
    (os.read todo).2.Final ∧ (os.read todo).1 ≠ .error := by
  obtain ⟨items, reported⟩ := os
  unfold Os.Final at h ⊢
  cases items with
  | nil => exact ⟨h, by simp [Os.read]⟩
  | cons item rest =>
    obtain ⟨hitem, hrest⟩ := List.forall_mem_cons.mp h
    cases item with
    | data bytes =>
      by_cases hfit : bytes.length ≤ todo
      · simp only [Os.read, if_pos hfit]
        exact ⟨hrest, by simp⟩
      · simp only [Os.read, if_neg hfit]
        exact ⟨List.forall_mem_cons.mpr ⟨⟨by simp, by simp⟩, hrest⟩, by simp⟩
    | eagain => exact absurd rfl hitem.1
    | eof => exact ⟨hrest, by simp [Os.read]⟩
    | eio => exact ⟨hrest, by simp [Os.read]⟩
    | error => exact absurd rfl hitem.2

/-- A `read()` gets something out of the operating system, or nothing but the end of the file is
left. -/
theorem Os.left_read {os : Os} (h : os.WellFormed) {todo : ℕ} (htodo : 0 < todo) :
    (os.read todo).2.left < os.left ∨
      (os.read todo).1 = .bytes [] ∧ (os.read todo).2.left = os.left := by
  obtain ⟨items, reported⟩ := os
  obtain ⟨hne, -, -⟩ := h
  unfold Os.left Os.stream
  cases items with
  | nil => exact Or.inr ⟨rfl, rfl⟩
  | cons item rest =>
    refine Or.inl ?_
    cases item with
    | data bytes =>
      have hpos := List.length_pos_of_ne_nil fun heq : bytes = [] =>
        hne (.data bytes) List.mem_cons_self (by rw [heq])
      by_cases hfit : bytes.length ≤ todo
      · simp only [Os.read, if_pos hfit, List.flatMap_cons, List.length_append, List.length_cons]
        omega
      · simp only [Os.read, if_neg hfit, List.flatMap_cons, List.length_append, List.length_cons,
          ReadItem.bytes, List.length_drop]
        omega
    | eagain => simp [Os.read, ReadItem.bytes]
    | eof => simp [Os.read, ReadItem.bytes]
    | eio => simp [Os.read, ReadItem.bytes]
    | error => simp [Os.read, ReadItem.bytes]

/-- With an empty stream, it reports the end of the file. -/
theorem Os.Final.read_end {os : Os} (h : os.Final) (hwf : os.WellFormed) (hstream : os.stream = [])
    (todo : ℕ) : (os.read todo).1 = .bytes [] ∨ (os.read todo).1 = .eio := by
  obtain ⟨items, reported⟩ := os
  unfold Os.Final at h
  cases items with
  | nil => exact Or.inl rfl
  | cons item rest =>
    have hitem := (List.forall_mem_cons.mp h).1
    cases item with
    | data bytes =>
      have hnil : bytes = [] := (List.append_eq_nil_iff.mp hstream).1
      exact absurd (congrArg ReadItem.data hnil) (hwf.1 _ List.mem_cons_self)
    | eagain => exact absurd rfl hitem.1
    | eof => exact Or.inl rfl
    | eio => exact Or.inr rfl
    | error => exact absurd rfl hitem.2

/-- What a decoder calls incomplete is shorter than the raw buffer. -/
def Short (d : Decoder σ UInt8 UInt8) : Prop :=
  ∀ st inp, d.head st inp = .incomplete → inp.length < 64 * 1024

/-- The conversion loop takes something from an input that starts with more than an incomplete
character, and from any input behind the end of the file. -/
theorem toUtf8Loop_shorter (hic : ic.Follows d) {isEofRaw : Bool} {st : σ} {inbuf : Bytes}
    {room : ℕ} (hne : inbuf ≠ []) (hhead : isEofRaw = true ∨ d.head st inbuf ≠ .incomplete)
    (hroom : ∀ len out next, d.head st inbuf = .char len out next → out.length ≤ room) :
    (toUtf8Loop ic isEofRaw inbuf.length st inbuf room []).1.length < inbuf.length := by
  have hpos := List.length_pos_of_ne_nil hne
  obtain ⟨n, hn⟩ : ∃ n, inbuf.length = n + 1 := ⟨inbuf.length - 1, by omega⟩
  rw [hn, toUtf8Loop, hic st inbuf room]
  by_cases hincomplete : d.head st inbuf = .incomplete
  · rw [Decoder.convert_of_incomplete hincomplete hne,
      hhead.resolve_right (absurd hincomplete)]
    exact Nat.succ_pos n
  have hprogress := Decoder.convert_progress hincomplete hroom
  have hconv := d.convert_sound room st inbuf
  generalize d.convert room st inbuf = c at hprogress hconv ⊢
  have hconsumed := hconv.consumed_le
  cases hstop : c.stop with
  | done =>
    have hall := hconv.done hstop
    simp only [List.length_drop]
    omega
  | full =>
    have hpos := hprogress.resolve_right (by rw [hstop]; decide)
    simp only [List.length_drop]
    omega
  | incomplete =>
    have hpos := hprogress.resolve_right (by rw [hstop]; decide)
    dsimp only
    split_ifs
    · exact Nat.succ_pos n
    · rw [List.length_drop]
      omega
  | invalid =>
    have hpos := List.length_pos_of_ne_nil (Decoder.ne_nil_of_head_invalid (hconv.invalid hstop))
    have hrest : ((inbuf.drop c.consumed).drop 1).length ≤ n := by
      rw [List.length_drop] at hpos
      rw [List.length_drop, List.length_drop]
      omega
    dsimp only
    split_ifs with hmore
    · obtain ⟨inbuf', out, st', heq, hle, -⟩ := toUtf8Loop_spec hic isEofRaw c.next hrest
        (room - c.out.length) ([] ++ c.out)
      rw [heq]
      exact Nat.lt_succ_of_le (hle.trans hrest)
    · exact Nat.lt_succ_of_le hrest

/-- A conversion of a raw buffer that is full, or at the end of the file, into an empty UTF-8 buffer
takes something. -/
theorem connectionToUtf8_shorter (hic : ic.Follows d) (hd : Yields d) (hshort : Short d)
    {ccon : Connection σ} (hne : ccon.buffer ≠ [])
    (hlast : ccon.isEofRaw = true ∨ 64 * 1024 ≤ ccon.buffer.length) (hempty : ccon.utf8 = [])
    (hroom : 64 * 1024 ≤ ccon.utf8AllocatedSize) :
    (connectionToUtf8 ic ccon).2.buffer.length < ccon.buffer.length := by
  have hpos := List.length_pos_of_ne_nil hne
  unfold connectionToUtf8
  dsimp only
  rw [hempty, List.length_nil, if_neg (by omega)]
  refine toUtf8Loop_shorter hic hne (hlast.imp_right fun hfull hincomplete => ?_)
    fun len out next hchar => ?_
  · have := hshort _ _ hincomplete
    omega
  · have := (hd _ _ _ _ _ hchar).2
    omega

/-- A conversion changes the buffers and its own state only. -/
theorem connectionToUtf8_changes (hic : ic.Bounded) (ccon : Connection σ) :
    ∃ ctx inbuf utf8, (connectionToUtf8 ic ccon).2 =
        { ccon with iconvCtx := ctx, buffer := inbuf, utf8 := utf8 } ∧
      inbuf.length ≤ ccon.buffer.length := by
  obtain ⟨removed, out, ctx, heq, -, hremoved, -⟩ := connectionToUtf8_bounds hic ccon
  refine ⟨some ctx, _, _, heq, ?_⟩
  have hlength := congrArg List.length hremoved
  rw [List.length_append] at hlength
  omega

/-- So does the conversion at the end of a read. -/
theorem convertNew_changes (hic : ic.Bounded) (ccon : Connection σ) :
    ∃ ctx inbuf utf8, (convertNew ic ccon).2 =
        { ccon with iconvCtx := ctx, buffer := inbuf, utf8 := utf8 } ∧
      inbuf.length ≤ ccon.buffer.length := by
  unfold convertNew
  split_ifs
  · exact connectionToUtf8_changes hic ccon
  · exact ⟨ccon.iconvCtx, ccon.buffer, ccon.utf8, rfl, Nat.le_refl _⟩

/-- The buffers have no size yet, or the raw buffer has its first size and the UTF-8 buffer no less
than that. -/
def Sized (ccon : Connection σ) : Prop :=
  ccon.bufferAllocatedSize = 0 ∨
    (ccon.bufferAllocatedSize = 64 * 1024 ∧ 64 * 1024 ≤ ccon.utf8AllocatedSize)

/-- A connection keeps its handle until it is closed, and the sizes of its buffers. -/
structure Held (osHandle : ℤ) (ccon : Connection σ) : Prop where
  handle : ccon.handle = osHandle
  sized : Sized ccon

/-- Converting. -/
theorem Held.toUtf8 {osHandle : ℤ} {ccon : Connection σ} (h : Held osHandle ccon) (ic : Riconv σ) :
    Held osHandle (connectionToUtf8 ic ccon).2 := by
  unfold connectionToUtf8
  dsimp only
  split_ifs
  · exact ⟨h.handle, h.sized⟩
  · exact ⟨h.handle, h.sized⟩

/-- Converting new bytes neither closes the connection nor changes its handle. -/
theorem Held.convertNew {osHandle : ℤ} {ccon : Connection σ} (h : Held osHandle ccon)
    (ic : Riconv σ) : Held osHandle (convertNew ic ccon).2 := by
  unfold Processx.convertNew
  split_ifs
  · exact h.toUtf8 ic
  · exact h

/-- Reading. -/
theorem Held.read {osHandle : ℤ} {ccon : Connection σ} (h : Held osHandle ccon) (ic : Riconv σ)
    (os : Os) : Held osHandle (connectionRead ic ccon os).2.1 := by
  have hset : ∀ ccon₁ : Connection σ, Held osHandle ccon₁ → ∀ raw eof buffer,
      Held osHandle { ccon₁ with isEofRaw := raw, isEof := eof, buffer := buffer } :=
    fun ccon₁ h₁ _ _ _ => ⟨h₁.handle, h₁.sized⟩
  unfold connectionRead
  by_cases hdone : ccon.isEofRaw ∧ ccon.buffer.length = 0
  · rw [if_pos hdone]
    dsimp only
    split_ifs
    · exact ⟨h.handle, h.sized⟩
    · exact h
  rw [if_neg hdone]
  have h₁ : Held osHandle
      (if ccon.bufferAllocatedSize = 0 then connectionAlloc ccon else ccon) := by
    split_ifs
    · exact ⟨h.handle, Or.inr ⟨rfl, Nat.le_refl _⟩⟩
    · exact h
  generalize (if ccon.bufferAllocatedSize = 0 then connectionAlloc ccon else ccon) = ccon₁ at h₁ ⊢
  dsimp only
  by_cases hfull : ccon₁.bufferAllocatedSize - ccon₁.buffer.length = 0
  · rw [if_pos hfull]
    exact h₁.toUtf8 ic
  rw [if_neg hfull]
  obtain ⟨bytes | _ | _ | _, os'⟩ := os.read (ccon₁.bufferAllocatedSize - ccon₁.buffer.length)
  · refine Held.convertNew ?_ ic
    split_ifs
    · exact hset ccon₁ h₁ _ _ _
    · exact hset ccon₁ h₁ _ _ _
  · exact h₁.convertNew ic
  · exact (hset ccon₁ h₁ _ _ _).convertNew ic
  · exact h₁

/-- Polling. -/
theorem Held.prePoll {osHandle : ℤ} {ccon : Connection σ} (h : Held osHandle ccon) (ic : Riconv σ) :
    Held osHandle (prePollConnection ic ccon).2 := by
  have hconv := h.toUtf8 ic
  unfold prePollConnection
  dsimp only
  split_ifs <;> first | exact h | exact hconv

/-- Making the UTF-8 buffer larger. -/
theorem Held.grow {osHandle : ℤ} {ccon : Connection σ} (h : Held osHandle ccon) :
    Held osHandle (if ccon.utf8.length ≥ ccon.utf8AllocatedSize - 8 then connectionRealloc ccon
      else ccon) := by
  split_ifs
  · refine ⟨h.handle, h.sized.imp_right fun hsized => ⟨hsized.1, ?_⟩⟩
    have hsize : (connectionRealloc ccon).utf8AllocatedSize =
        if ccon.utf8AllocatedSize * 6 / 5 = ccon.utf8AllocatedSize then
          2 * (ccon.utf8AllocatedSize * 6 / 5) else ccon.utf8AllocatedSize * 6 / 5 := rfl
    have hmin := hsized.2
    rw [hsize]
    split_ifs <;> omega
  · exact h

/-- Any call on text. -/
theorem TextOp.held (ic : Riconv σ) (op : TextOp) {osHandle : ℤ} {ccon : Connection σ} (os : Os)
    (h : Held osHandle ccon) : Held osHandle (op.run ic ccon os).1 := by
  refine op.keeps (P := fun ccon _ => Held osHandle ccon) (fun maxchars maxbytes h => ?_)
    (fun h => ?_) (fun h => h.prePoll ic) (fun _ h => ⟨h.handle, h.sized⟩) h
  · exact connectionFindChars_keeps (P := fun ccon _ => Held osHandle ccon)
      (fun _ os h _ => h.read ic os) h maxchars maxbytes
  · exact connectionReadUntilNewline_keeps (P := fun ccon _ => Held osHandle ccon)
      (fun _ os h _ => h.read ic os) (fun _ os h => h.grow.read ic os) h

/-- Reading bytes. -/
theorem Held.readBytes {osHandle : ℤ} {ccon : Connection σ} (h : Held osHandle ccon) (ic : Riconv σ)
    (os : Os) (nbytes : ℤ) : Held osHandle (connectionReadBytes ic ccon os nbytes).2.1 := by
  unfold connectionReadBytes
  cases checkValidConn ccon with
  | error msg => exact h
  | ok _ =>
    dsimp only
    have hraw : Held osHandle { ccon with rawMode := true } := ⟨h.handle, h.sized⟩
    have hstate : Held osHandle (if ccon.buffer.length = 0 ∧ (!ccon.isEofRaw) = true then
        connectionRead ic { ccon with rawMode := true } os
        else (.ok 0, { ccon with rawMode := true }, os)).2.1 := by
      split_ifs
      · exact hraw.read ic os
      · exact hraw
    generalize (if ccon.buffer.length = 0 ∧ (!ccon.isEofRaw) = true then
      connectionRead ic { ccon with rawMode := true } os
      else (.ok 0, { ccon with rawMode := true }, os)) = answer at hstate ⊢
    obtain ⟨msg | n, ccon', os'⟩ := answer
    · exact hstate
    · dsimp only at hstate ⊢
      split_ifs <;> exact ⟨hstate.handle, hstate.sized⟩

/-- Any calls on a fresh connection that is read as raw bytes. -/
theorem RawReader.run_held (ic : Riconv σ) (osHandle : ℤ) (encoding : String) (os : Os)
    (ops : List RawOp) : Held osHandle (RawReader.run ic osHandle encoding os ops).ccon := by
  suffices hfold : ∀ s : RawReader σ, Held osHandle s.ccon →
      Held osHandle (ops.foldl (RawReader.step ic) s).ccon from hfold _ ⟨rfl, Or.inl rfl⟩
  induction ops with
  | nil => exact fun s hs => hs
  | cons op ops ih =>
    intro s hs
    refine ih _ ?_
    cases op with
    | poll => exact hs.prePoll ic
    | readBytes nbytes =>
      have hread := hs.readBytes ic s.os nbytes
      unfold RawReader.step
      dsimp only
      generalize connectionReadBytes ic s.ccon s.os nbytes = answer at hread ⊢
      obtain ⟨_ | bytes, ccon', os'⟩ := answer
      · exact hread
      · exact hread

/-- What a read does to the rest: it does not throw, and leaves no more than there was. -/
structure ReadsOn (ccon : Connection σ) (os : Os)
    (result : Except String ℕ × Connection σ × Os) : Prop where
  ok : ∃ n, result.1 = .ok n
  final : result.2.2.Final
  unread_le : unread result.2.1 result.2.2 ≤ unread ccon os

/-- A conversion after a `read()` leaves no more than there was before it, and less if the `read()`
got something or has seen the end. -/
theorem unread_convertNew (hic : ic.Bounded) {ccon ccon₁ : Connection σ} {os os' : Os}
    (hbytes : ccon₁.buffer.length + os'.stream.length = ccon.buffer.length + os.stream.length)
    (hleft : os'.left ≤ os.left) (hraw : ccon.isEofRaw = true → ccon₁.isEofRaw = true)
    (heof : ccon.isEof = true → ccon₁.isEof = true) :
    unread (convertNew ic ccon₁).2 os' ≤ unread ccon os ∧
      (os'.left < os.left ∨ ccon.isEofRaw = false ∧ ccon₁.isEofRaw = true →
        unread (convertNew ic ccon₁).2 os' < unread ccon os) := by
  obtain ⟨ctx, inbuf, utf8, heq, hle⟩ := convertNew_changes hic ccon₁
  rw [heq]
  unfold unread
  dsimp only
  have hflagRaw : (!ccon₁.isEofRaw).toNat ≤ (!ccon.isEofRaw).toNat := by
    cases hset : ccon.isEofRaw with
    | false => exact Bool.toNat_le _
    | true => rw [hraw hset]
  have hflag : (!ccon₁.isEof).toNat ≤ (!ccon.isEof).toNat := by
    cases hset : ccon.isEof with
    | false => exact Bool.toNat_le _
    | true => rw [heof hset]
  refine ⟨by omega, ?_⟩
  rintro (hless | ⟨hopen, hset⟩)
  · omega
  · rw [hopen, hset] at hflagRaw ⊢
    simp only [Bool.not_true, Bool.not_false, Bool.toNat_true, Bool.toNat_false]
    omega

/-- A connection in text mode that is open, when nobody can write to the other end any more. -/
structure TextOpen (ccon : Connection σ) (os : Os) : Prop where
  sound : Sound ccon os
  whole : Whole ccon.utf8
  valid : 0 ≤ ccon.handle
  sized : Sized ccon
  final : os.Final

/-- Behind the end of the file, a conversion into the empty UTF-8 buffer takes something out of the
raw buffer. -/
theorem convertNew_shorter (hic : ic.Follows d) (hd : Yields d) (hshort : Short d)
    {ccon : Connection σ} (htext : ccon.rawMode = false) (hne : ccon.buffer ≠ [])
    (hlast : ccon.isEofRaw = true) (hempty : ccon.utf8 = [])
    (hroom : 64 * 1024 ≤ ccon.utf8AllocatedSize) :
    (convertNew ic ccon).2.buffer.length < ccon.buffer.length := by
  unfold convertNew
  rw [if_pos ⟨by rw [htext]; rfl, List.length_pos_of_ne_nil hne⟩]
  exact connectionToUtf8_shorter hic hd hshort hne (Or.inl hlast) hempty hroom

/-- **One read.** A read into the empty UTF-8 buffer of a connection that is not at its end puts
text there, or brings the end closer. -/
theorem TextOpen.read_unread (hic : ic.Follows d) (hd : Yields d) (hshort : Short d)
    {ccon : Connection σ} {os : Os} (h : TextOpen ccon os) (hempty : ccon.utf8 = [])
    (hopen : ccon.isEof = false) :
    ReadsOn ccon os (connectionRead ic ccon os) ∧
      unread (connectionRead ic ccon os).2.1 (connectionRead ic ccon os).2.2 < unread ccon os := by
  have hbounded := hic.bounded
  unfold connectionRead
  by_cases hdone : ccon.isEofRaw ∧ ccon.buffer.length = 0
  · have hnil : ccon.utf8.length = 0 := by rw [hempty]; rfl
    rw [if_pos hdone]
    dsimp only
    rw [if_pos hnil]
    have hless : unread { ccon with isEof := true } os < unread ccon os := by
      simp [unread, hopen]
    exact ⟨⟨⟨0, rfl⟩, h.final, hless.le⟩, hless⟩
  rw [if_neg hdone]
  obtain ⟨ccon₁, hccon₁, hroom, hsize₁, hbuffer₁, hutf8₁, hraw₁, heof₁, htext₁⟩ : ∃ ccon₁,
      (if ccon.bufferAllocatedSize = 0 then connectionAlloc ccon else ccon) = ccon₁ ∧
        64 * 1024 ≤ ccon₁.utf8AllocatedSize ∧ ccon₁.bufferAllocatedSize = 64 * 1024 ∧
        ccon₁.buffer = ccon.buffer ∧ ccon₁.utf8 = [] ∧ ccon₁.isEofRaw = ccon.isEofRaw ∧
        ccon₁.isEof = ccon.isEof ∧ ccon₁.rawMode = false := by
    have htext := h.sound.textMode
    by_cases hnone : ccon.bufferAllocatedSize = 0
    · exact ⟨_, if_pos hnone, Nat.le_refl _, rfl, (h.sound.alloc hnone).1.symm, rfl, rfl, rfl,
        htext⟩
    · obtain ⟨hsize, hroom⟩ := h.sized.resolve_left hnone
      exact ⟨_, if_neg hnone, hroom, hsize, rfl, hempty, rfl, rfl, htext⟩
  rw [hccon₁]
  dsimp only
  by_cases hfull : ccon₁.bufferAllocatedSize - ccon₁.buffer.length = 0
  · rw [if_pos hfull]
    obtain ⟨ctx, inbuf, utf8, heq, -⟩ := connectionToUtf8_changes hbounded ccon₁
    have hshorter := @connectionToUtf8_shorter _ _ _ hic hd hshort ccon₁
      (List.ne_nil_of_length_pos (by omega)) (Or.inr (by omega)) hutf8₁ hroom
    have hless : unread (connectionToUtf8 ic ccon₁).2 os < unread ccon os := by
      rw [heq] at hshorter ⊢
      unfold unread
      dsimp only at hshorter ⊢
      rw [← hbuffer₁, ← hraw₁, ← heof₁]
      omega
    exact ⟨⟨⟨_, rfl⟩, h.final, hless.le⟩, hless⟩
  rw [if_neg hfull]
  have hread := Os.read_spec h.sound.wellFormed (Nat.pos_of_ne_zero hfull)
  have hfinal' := h.final.read (ccon₁.bufferAllocatedSize - ccon₁.buffer.length)
  have hleft := Os.left_read h.sound.wellFormed (Nat.pos_of_ne_zero hfull)
  generalize os.read (ccon₁.bufferAllocatedSize - ccon₁.buffer.length) = answer
    at hread hfinal' hleft ⊢
  obtain ⟨result, os'⟩ := answer
  obtain ⟨hfinal', herror⟩ := hfinal'
  have hstep : ∀ ccon₂ : Connection σ,
      ccon₂.buffer.length + os'.stream.length = ccon.buffer.length + os.stream.length →
      (ccon.isEofRaw = true → ccon₂.isEofRaw = true) → (ccon.isEof = true → ccon₂.isEof = true) →
      (os'.left < os.left ∨ os'.left = os.left ∧ ccon₂.isEofRaw = true ∧
        ccon₂.rawMode = false ∧ ccon₂.buffer = ccon.buffer ∧ ccon₂.utf8 = [] ∧
        64 * 1024 ≤ ccon₂.utf8AllocatedSize) →
      ReadsOn ccon os (.ok (convertNew ic ccon₂).1, (convertNew ic ccon₂).2, os') ∧
        unread (convertNew ic ccon₂).2 os' < unread ccon os := by
    intro ccon₂ hbytes₂ hraw₂ heof₂ hgot
    obtain ⟨hle, hless⟩ := unread_convertNew hbounded hbytes₂ (by omega) hraw₂ heof₂
    refine ⟨⟨⟨_, rfl⟩, hfinal', hle⟩, ?_⟩
    rcases hgot with hgot | ⟨hsame, hset, htext₂, hbuffer₂, hutf8₂, hroom₂⟩
    · exact hless (Or.inl hgot)
    by_cases hend : ccon.isEofRaw = true
    · -- nothing is read behind the end of the file, but raw bytes are converted
      have hne : ccon₂.buffer ≠ [] := by
        rw [hbuffer₂]
        exact fun hnil => hdone ⟨hend, by rw [hnil]; rfl⟩
      have hshorter := convertNew_shorter hic hd hshort htext₂ hne hset hutf8₂ hroom₂
      obtain ⟨ctx, inbuf, utf8, heq, -⟩ := convertNew_changes hbounded ccon₂
      rw [heq] at hshorter ⊢
      unfold unread
      dsimp only at hshorter ⊢
      rw [hset, hend]
      have hflag : (!ccon₂.isEof).toNat ≤ (!ccon.isEof).toNat := by
        rw [hopen]
        exact Bool.toNat_le _
      omega
    · exact hless (Or.inr ⟨by simpa using hend, hset⟩)
  have hopen₁ : ccon.isEof = true → ∀ ccon₂ : Connection σ, ccon₂.isEof = true := fun hset =>
    absurd hset (by simp [hopen])
  cases result with
  | bytes bytes =>
    obtain ⟨hstream, -⟩ := hread.bytes bytes rfl
    have hlength : bytes.length + os'.stream.length = os.stream.length := by
      rw [hstream, List.length_append]
    by_cases hnil : bytes.length = 0
    · have hzero := List.length_eq_zero_iff.mp hnil
      subst hzero
      simp only [List.length_nil, if_true, List.append_nil] at hlength ⊢
      refine hstep (markEofRaw ccon₁) ?_ (fun _ => rfl) (fun hset => hopen₁ hset _)
        (hleft.imp_right fun hsame => ⟨hsame.2, rfl, htext₁, hbuffer₁, hutf8₁, hroom⟩)
      show ccon₁.buffer.length + _ = _
      rw [hbuffer₁]
      omega
    · simp only [if_neg hnil]
      refine hstep { ccon₁ with buffer := ccon₁.buffer ++ bytes } ?_
        (fun hset => hraw₁.trans hset) (fun hset => hopen₁ hset _) (Or.inl ?_)
      · simp only [List.length_append, hbuffer₁]
        omega
      · refine hleft.resolve_right fun hsame => hnil ?_
        rw [ReadResult.bytes.inj hsame.1]
        rfl
  | eagain =>
    refine hstep ccon₁ ?_ (fun hset => hraw₁.trans hset) (fun hset => hopen₁ hset _)
      (Or.inl (hleft.resolve_right fun hsame => absurd hsame.1 (by simp)))
    rw [hbuffer₁, hread.other (by simp)]
  | eio =>
    refine hstep (markEofRaw ccon₁) ?_ (fun _ => rfl) (fun hset => hopen₁ hset _)
      (Or.inl (hleft.resolve_right fun hsame => absurd hsame.1 (by simp)))
    show ccon₁.buffer.length + _ = _
    rw [hbuffer₁, hread.other (by simp)]
  | error => exact absurd rfl herror

/-- The first characters of a text, at most 2000, as `run_manage()` asks for them. -/
def firstChars (chars : List Bytes) : Bytes := (chars.take 2000).flatten

/-- They fit in an `int`. -/
theorem length_firstChars_lt {chars : List Bytes} (h : ∀ c ∈ chars, IsCharacter c) :
    (firstChars chars).length < 2 ^ 31 := by
  have hle : ∀ cs : List Bytes, (∀ c ∈ cs, IsCharacter c) → cs.flatten.length ≤ 4 * cs.length := by
    intro cs hcs
    induction cs with
    | nil => exact Nat.le_refl _
    | cons c cs ih =>
      obtain ⟨hc, hrest⟩ := List.forall_mem_cons.mp hcs
      have hfour := hc.length_bounds.2
      have hmore := ih hrest
      simp only [List.flatten_cons, List.length_append, List.length_cons]
      omega
  have hfew := hle (chars.take 2000) fun c hc => h c (List.mem_of_mem_take hc)
  have htake := List.length_take_le 2000 chars
  unfold firstChars
  omega

/-- A call whose read does not throw makes a string of the first characters that it finds. R refuses
it if there is a NUL among them, and nothing is taken then. -/
theorem connectionReadChars_first {ccon : Connection σ} {os : Os} {chars : List Bytes}
    (hhandle : 0 ≤ ccon.handle)
    (hread : ccon.isEof = false → ccon.utf8 = [] → ∃ n, (connectionRead ic ccon os).1 = .ok n)
    (h : Spells chars (scannedState ic ccon os).1.utf8) :
    connectionReadChars ic ccon os 2000 =
      if 0 ∈ firstChars chars then (.error "embedded nul in string", scannedState ic ccon os)
      else (.ok (firstChars chars),
        dropUtf8 (scannedState ic ccon os).1 (firstChars chars).length,
        (scannedState ic ccon os).2) := by
  have hfront : firstChars chars =
      (scannedState ic ccon os).1.utf8.take (firstChars chars).length := by
    rw [← h.flatten, ← List.take_append_drop 2000 chars, List.flatten_append]
    unfold firstChars
    rw [List.take_append_drop, List.take_left]
  have hfind : connectionFindChars ic ccon os 2000 (-1) =
      (.ok (firstChars chars).length, scannedState ic ccon os) := by
    obtain ⟨n, hanswer⟩ : ∃ n, (if (!ccon.isEof) = true ∧ ccon.utf8.length = 0 then
        connectionRead ic ccon os else (.ok 0, ccon, os)) = (.ok n, scannedState ic ccon os) := by
      unfold scannedState
      split_ifs with hempty
      · obtain ⟨n, hn⟩ := hread (by simpa using hempty.1) (List.length_eq_zero_iff.mp hempty.2)
        exact ⟨n, by rw [← hn]⟩
      · exact ⟨0, rfl⟩
    unfold connectionFindChars checkValidConn
    rw [if_neg (by omega)]
    dsimp only
    rw [hanswer]
    dsimp only
    by_cases hnil : (scannedState ic ccon os).1.utf8.length = 0
    · rw [if_pos (Or.inl hnil)]
      have hzero : (firstChars chars).length = 0 := by
        rw [hfront, List.length_take, hnil, Nat.min_zero]
      rw [hzero]
    · rw [if_neg (by omega), connectionFindUtf8Chars_take h (by decide)]
      rfl
  unfold connectionReadChars
  rw [hfind]
  dsimp only
  have hint := toInt_of_lt (length_firstChars_lt h.characters)
  rw [hint, mkCharLenCE, if_neg (by omega), Int.toNat_natCast, ← hfront]
  by_cases hnul : 0 ∈ firstChars chars
  · rw [if_pos hnul, if_pos hnul]
  · rw [if_neg hnul, if_neg hnul]

/-- All that is left of it: its text, and what is not read yet. -/
def textLeft (ic : Riconv σ) (d : Decoder σ UInt8 UInt8) (ccon : Connection σ) (os : Os) : ℕ :=
  (pendingText ic d ccon os).length + unread ccon os

/-- There is text, and R refuses to make a string of its first characters. -/
def Refused (ccon : Connection σ) : Prop :=
  ∃ chars, Spells chars ccon.utf8 ∧ 0 ∈ firstChars chars

/-- A poll changes no flag and no text. -/
theorem TextOpen.poll (hic : ic.Follows d) (hd : Yields d) {ccon : Connection σ} {os : Os}
    (h : TextOpen ccon os) :
    TextOpen (prePollConnection ic ccon).2 os ∧
      (prePollConnection ic ccon).2.isEof = ccon.isEof ∧
      pendingText ic d (prePollConnection ic ccon).2 os = pendingText ic d ccon os ∧
      unread (prePollConnection ic ccon).2 os ≤ unread ccon os := by
  have hwrites := hd.writesCharacters hic
  obtain ⟨_, hmoves⟩ := prePollConnection_moves hic h.sound
  have hheld := Held.prePoll ⟨rfl, h.sized⟩ ic
  obtain ⟨inbuf, out, st, heq, hle, -⟩ := connectionToUtf8_spec hic ccon
  refine ⟨⟨hmoves.sound, prePollConnection_whole hwrites h.whole, hmoves.handle ▸ h.valid,
    hheld.sized, h.final⟩, ?_, hmoves.text, ?_⟩
  · have hconv : (connectionToUtf8 ic ccon).2.isEof = ccon.isEof := by rw [heq]
    unfold prePollConnection
    dsimp only
    split_ifs <;> first | rfl | exact hconv
  · have hconv : unread (connectionToUtf8 ic ccon).2 os ≤ unread ccon os := by
      rw [heq]
      unfold unread
      dsimp only
      omega
    unfold prePollConnection
    dsimp only
    split_ifs <;> first | exact Nat.le_refl _ | exact hconv

/-- Taking text. -/
theorem TextOpen.dropUtf8 {ccon : Connection σ} {os : Os} (h : TextOpen ccon os) {n : ℕ}
    (hwhole : Whole (ccon.utf8.drop n)) : TextOpen (dropUtf8 ccon n) os :=
  ⟨h.sound.dropUtf8 n, hwhole, h.valid, h.sized, h.final⟩

/-- What a call has scanned. -/
theorem TextOpen.scanned (hic : ic.Follows d) (hd : Yields d) (hshort : Short d)
    {ccon : Connection σ} {os : Os} (h : TextOpen ccon os) :
    (ccon.isEof = false → ccon.utf8 = [] → ∃ n, (connectionRead ic ccon os).1 = .ok n) ∧
      TextOpen (scannedState ic ccon os).1 (scannedState ic ccon os).2 ∧
      pendingText ic d (scannedState ic ccon os).1 (scannedState ic ccon os).2 =
        pendingText ic d ccon os ∧
      unread (scannedState ic ccon os).1 (scannedState ic ccon os).2 ≤ unread ccon os ∧
      (ccon.isEof = false → (scannedState ic ccon os).1.utf8 = [] →
        unread (scannedState ic ccon os).1 (scannedState ic ccon os).2 < unread ccon os) := by
  have hwrites := hd.writesCharacters hic
  by_cases hread : (!ccon.isEof) = true ∧ ccon.utf8.length = 0
  · have hopen : ccon.isEof = false := by simpa using hread.1
    have hempty := List.length_eq_zero_iff.mp hread.2
    obtain ⟨hreads, hless⟩ := h.read_unread hic hd hshort hempty hopen
    obtain ⟨_, hmoves, -⟩ := connectionRead_moves hic h.sound
    have hheld := Held.read ⟨rfl, h.sized⟩ ic os
    unfold scannedState
    rw [if_pos hread]
    exact ⟨fun _ _ => hreads.ok, ⟨hmoves.sound, connectionRead_whole hwrites os h.whole,
      hmoves.handle ▸ h.valid, hheld.sized, hreads.final⟩, hmoves.text, hreads.unread_le,
      fun _ _ => hless⟩
  · unfold scannedState
    rw [if_neg hread]
    refine ⟨fun hopen hempty => absurd ⟨by rw [hopen]; rfl, by rw [hempty]; rfl⟩ hread, h, rfl,
      Nat.le_refl _, fun hopen hempty => absurd ⟨by rw [hopen]; rfl, by rw [hempty]; rfl⟩ hread⟩

/-- **One call on text.** It returns some text without a NUL and brings the end closer, or R refuses
the text, which stays. -/
theorem TextOpen.readChars (hic : ic.Follows d) (hd : Yields d) (hshort : Short d)
    {ccon : Connection σ} {os : Os} (h : TextOpen ccon os) :
    (∃ front ccon' os', connectionReadChars ic ccon os 2000 = (.ok front, ccon', os') ∧
        TextOpen ccon' os' ∧ 0 ∉ front ∧
        front ++ pendingText ic d ccon' os' = pendingText ic d ccon os ∧
        (ccon.isEof = false → textLeft ic d ccon' os' < textLeft ic d ccon os)) ∨
      ∃ msg ccon' os', connectionReadChars ic ccon os 2000 = (.error msg, ccon', os') ∧
        TextOpen ccon' os' ∧ Refused ccon' ∧
        pendingText ic d ccon' os' = pendingText ic d ccon os := by
  obtain ⟨hread, hscanned, htext, hle, hless⟩ := h.scanned hic hd hshort
  obtain ⟨chars, hchars⟩ := hscanned.whole
  rw [connectionReadChars_first h.valid hread hchars]
  by_cases hnul : 0 ∈ firstChars chars
  · rw [if_pos hnul]
    exact Or.inr ⟨_, _, _, rfl, hscanned, ⟨chars, hchars, hnul⟩, htext⟩
  rw [if_neg hnul]
  have hsplit : (scannedState ic ccon os).1.utf8 =
      firstChars chars ++ (chars.drop 2000).flatten := by
    rw [firstChars, ← List.flatten_append, List.take_append_drop, hchars.flatten]
  have htake : (scannedState ic ccon os).1.utf8.take (firstChars chars).length =
      firstChars chars := by
    rw [hsplit, List.take_left]
  have hwhole : Whole ((scannedState ic ccon os).1.utf8.drop (firstChars chars).length) := by
    rw [hsplit, List.drop_left]
    exact ⟨chars.drop 2000, fun c hc => hchars.characters c (List.mem_of_mem_drop hc), rfl⟩
  have hpending := take_append_pendingText_dropUtf8 ic d (scannedState ic ccon os).1
    (scannedState ic ccon os).2 (firstChars chars).length
  rw [htake, htext] at hpending
  refine Or.inl ⟨_, _, _, rfl, hscanned.dropUtf8 hwhole, hnul, hpending, fun hopen => ?_⟩
  have hlength := congrArg List.length hpending
  rw [List.length_append] at hlength
  have hsame : unread (Processx.dropUtf8 (scannedState ic ccon os).1 (firstChars chars).length)
      (scannedState ic ccon os).2 =
        unread (scannedState ic ccon os).1 (scannedState ic ccon os).2 := rfl
  unfold textLeft
  rw [hsame]
  -- without text in the UTF-8 buffer the read has got something else done
  by_cases hnone : (scannedState ic ccon os).1.utf8 = []
  · have := hless hopen hnone
    omega
  · have hpos : 0 < (firstChars chars).length := by
      refine List.length_pos_of_ne_nil fun hnil => hnone ?_
      cases chars with
      | nil => rw [hsplit]; rfl
      | cons c chars =>
        have hc := (hchars.characters c List.mem_cons_self).length_bounds.1
        rw [firstChars, List.take_succ_cons, List.flatten_cons, List.append_eq_nil_iff] at hnil
        rw [hnil.1] at hc
        exact absurd hc (by decide)
    omega

/-- Text that R refuses stays for ever, and every call throws. -/
theorem TextOpen.refused (hic : ic.Follows d) (hd : Yields d) (hshort : Short d)
    {ccon : Connection σ} {os : Os} (h : TextOpen ccon os) (hrefused : Refused ccon) :
    (prePollConnection ic ccon).2 = ccon ∧
      connectionReadChars ic ccon os 2000 = (.error "embedded nul in string", ccon, os) := by
  obtain ⟨chars, hchars, hnul⟩ := hrefused
  have hne : ccon.utf8 ≠ [] := by
    intro hnil
    have hzero : 0 ∈ ccon.utf8 := by
      rw [← hchars.flatten, ← List.take_append_drop 2000 chars, List.flatten_append]
      exact List.mem_append_left _ hnul
    rw [hnil] at hzero
    cases hzero
  have hpos := List.length_pos_of_ne_nil hne
  refine ⟨?_, ?_⟩
  · unfold prePollConnection
    rw [h.sound.textMode]
    dsimp only
    split_ifs <;> rfl
  · have hsame : scannedState ic ccon os = (ccon, os) := by
      unfold scannedState
      rw [if_neg (by omega)]
    have hchars' : Spells chars (scannedState ic ccon os).1.utf8 := by rw [hsame]; exact hchars
    rw [connectionReadChars_first h.valid (h.scanned hic hd hshort).1 hchars', if_pos hnul, hsame]

/-- A connection that is read as raw bytes and is open, when nobody can write to the other end any
more. -/
structure RawOpen (ccon : Connection σ) (os : Os) : Prop where
  untouched : Untouched ccon os
  valid : 0 ≤ ccon.handle
  sized : Sized ccon
  final : os.Final

/-- One `read()` into the empty raw buffer. -/
theorem Untouched.read_unread (hic : ic.Bounded) {ccon : Connection σ} {os : Os}
    (h : Untouched ccon os) (hfinal : os.Final) (hempty : ccon.buffer = [])
    (hopen : ccon.isEofRaw = false) :
    ReadsOn ccon os (connectionRead ic { ccon with rawMode := true } os) ∧
      unread (connectionRead ic { ccon with rawMode := true } os).2.1
        (connectionRead ic { ccon with rawMode := true } os).2.2 < unread ccon os := by
  have hnotEof : ccon.isEof = false := by
    by_contra hset
    have hend := (h.eof (by simpa using hset)).1
    rw [hopen] at hend
    cases hend
  unfold connectionRead
  rw [if_neg (by simp [hopen])]
  obtain ⟨ccon₁, hccon₁, hsize, hbuffer₁⟩ : ∃ ccon₁,
      (if ccon.bufferAllocatedSize = 0 then connectionAlloc { ccon with rawMode := true }
        else { ccon with rawMode := true }) = ccon₁ ∧
        0 < ccon₁.bufferAllocatedSize ∧ ccon₁.buffer = [] := by
    by_cases hnone : ccon.bufferAllocatedSize = 0
    · exact ⟨_, if_pos hnone, by simp [connectionAlloc], rfl⟩
    · exact ⟨_, if_neg hnone, Nat.pos_of_ne_zero hnone, hempty⟩
  dsimp only
  rw [hccon₁, hbuffer₁, List.length_nil, Nat.sub_zero, if_neg (by omega)]
  have hread := Os.read_spec h.wellFormed hsize
  obtain ⟨hfinal', herror⟩ := hfinal.read ccon₁.bufferAllocatedSize
  have hleft := Os.left_read h.wellFormed hsize
  generalize os.read ccon₁.bufferAllocatedSize = answer at hread hfinal' herror hleft ⊢
  obtain ⟨result, os'⟩ := answer
  have hstep : ∀ ccon₂ : Connection σ, ccon₂.buffer.length + os'.stream.length = os.stream.length →
      (os'.left < os.left ∨ os'.left = os.left ∧ ccon₂.isEofRaw = true) →
      ReadsOn ccon os (.ok (convertNew ic ccon₂).1, (convertNew ic ccon₂).2, os') ∧
        unread (convertNew ic ccon₂).2 os' < unread ccon os := by
    intro ccon₂ hbytes hgot
    obtain ⟨hle, hless⟩ := @unread_convertNew _ _ hic ccon ccon₂ os os'
      (by rw [hempty, hbytes]; exact (Nat.zero_add _).symm) (by omega)
      (fun hset => by rw [hopen] at hset; cases hset)
      (fun hset => by rw [hnotEof] at hset; cases hset)
    exact ⟨⟨⟨_, rfl⟩, hfinal', hle⟩, hless (hgot.imp_right fun hsame => ⟨hopen, hsame.2⟩)⟩
  cases result with
  | bytes bytes =>
    obtain ⟨hstream, -⟩ := hread.bytes bytes rfl
    have hlength : bytes.length + os'.stream.length = os.stream.length := by
      rw [hstream, List.length_append]
    by_cases hnil : bytes.length = 0
    · have hzero := List.length_eq_zero_iff.mp hnil
      subst hzero
      simp only [List.length_nil, if_true, List.append_nil, Nat.zero_add] at hlength ⊢
      refine hstep (markEofRaw ccon₁) ?_ (hleft.imp_right fun hsame => ⟨hsame.2, rfl⟩)
      show ccon₁.buffer.length + _ = _
      rw [hbuffer₁, List.length_nil, Nat.zero_add, hlength]
    · simp only [if_neg hnil]
      refine hstep { ccon₁ with buffer := ccon₁.buffer ++ bytes }
        (by rw [hbuffer₁]; exact hlength) (Or.inl ?_)
      refine hleft.resolve_right fun hsame => hnil ?_
      rw [ReadResult.bytes.inj hsame.1]
      rfl
  | eagain =>
    refine hstep ccon₁ ?_ (Or.inl (hleft.resolve_right fun hsame => absurd hsame.1 (by simp)))
    rw [hbuffer₁, hread.other (by simp)]
    exact Nat.zero_add _
  | eio =>
    refine hstep (markEofRaw ccon₁) ?_
      (Or.inl (hleft.resolve_right fun hsame => absurd hsame.1 (by simp)))
    show ccon₁.buffer.length + _ = _
    rw [hbuffer₁, hread.other (by simp)]
    exact Nat.zero_add _
  | error => exact absurd rfl herror

/-- **One call for bytes.** It does not throw, it keeps an end, and it brings the end closer. -/
theorem RawOpen.readBytes (hic : ic.Bounded) {ccon : Connection σ} {os : Os}
    (h : RawOpen ccon os) :
    ∃ bytes ccon' os', connectionReadBytes ic ccon os 2000 = (.ok bytes, ccon', os') ∧
      RawOpen ccon' os' ∧ (ccon.isEof = true → ccon'.isEof = true) ∧
      (ccon.isEof = false → unread ccon' os' < unread ccon os) := by
  have huntouched : ∀ bytes ccon' os', connectionReadBytes ic ccon os 2000 =
      (.ok bytes, ccon', os') → Untouched ccon' os' := by
    intro bytes ccon' os' hanswer
    have hkeeps := @RawReader.Keeps.step _ ic _ ⟨[], ccon, os⟩ ⟨h.untouched, rfl, by simp⟩
      (.readBytes 2000)
    rw [RawReader.step, hanswer] at hkeeps
    exact hkeeps.untouched
  -- the read, if there is one
  obtain ⟨n, ccon₁, os₁, hread, hheld₁, hfinal₁, hends, hle, hmore⟩ : ∃ n ccon₁ os₁,
      (if ccon.buffer.length = 0 ∧ (!ccon.isEofRaw) = true then
        connectionRead ic { ccon with rawMode := true } os
        else (.ok 0, { ccon with rawMode := true }, os)) = (.ok n, ccon₁, os₁) ∧
      Held ccon.handle ccon₁ ∧ os₁.Final ∧ (ccon.isEof = true → ccon₁.isEof = true) ∧
      unread ccon₁ os₁ ≤ unread ccon os ∧
      (unread ccon₁ os₁ < unread ccon os ∨ ccon₁.isEof = ccon.isEof ∧
        (ccon₁.buffer = [] → ccon₁.isEofRaw = true)) := by
    by_cases hempty : ccon.buffer.length = 0 ∧ (!ccon.isEofRaw) = true
    · have hopen : ccon.isEofRaw = false := by simpa using hempty.2
      obtain ⟨hreads, hless⟩ := h.untouched.read_unread hic h.final
        (List.length_eq_zero_iff.mp hempty.1) hopen
      have hraw : Held ccon.handle { ccon with rawMode := true } := ⟨rfl, h.sized⟩
      obtain ⟨n, hn⟩ := hreads.ok
      refine ⟨n, _, _, by rw [if_pos hempty, ← hn], hraw.read ic os, hreads.final, fun hset => ?_,
        hreads.unread_le, Or.inl hless⟩
      have hend := (h.untouched.eof hset).1
      rw [hopen] at hend
      cases hend
    · refine ⟨0, _, _, if_neg hempty, ⟨rfl, h.sized⟩, h.final, id, Nat.le_refl _,
        Or.inr ⟨rfl, fun hnil => ?_⟩⟩
      by_contra hopen
      exact hempty ⟨List.length_eq_zero_iff.mpr hnil, by simpa using hopen⟩
  obtain ⟨ccon₂, hccon₂, hheld₂, hbuffer₂, hends₂, hle₂, hmore₂⟩ : ∃ ccon₂,
      (if ccon₁.isEofRaw = true ∧ ccon₁.buffer.length = 0 then { ccon₁ with isEof := true }
        else ccon₁) = ccon₂ ∧ Held ccon.handle ccon₂ ∧ ccon₂.buffer = ccon₁.buffer ∧
        (ccon₁.isEof = true → ccon₂.isEof = true) ∧ unread ccon₂ os₁ ≤ unread ccon₁ os₁ ∧
        (ccon₁.isEof = false → ccon₁.isEofRaw = true → ccon₁.buffer = [] →
          unread ccon₂ os₁ < unread ccon₁ os₁) := by
    by_cases hend : ccon₁.isEofRaw = true ∧ ccon₁.buffer.length = 0
    · refine ⟨_, if_pos hend, ⟨hheld₁.handle, hheld₁.sized⟩, rfl, fun _ => rfl, ?_, ?_⟩
      · simp [unread]
      · intro hopen _ _
        simp [unread, hopen]
    · exact ⟨_, if_neg hend, hheld₁, rfl, id, Nat.le_refl _, fun _ hraw hnil =>
        absurd ⟨hraw, List.length_eq_zero_iff.mpr hnil⟩ hend⟩
  obtain ⟨toRead, hanswer, htoRead⟩ : ∃ toRead, connectionReadBytes ic ccon os 2000 =
      (.ok (ccon₂.buffer.take toRead), { ccon₂ with buffer := ccon₂.buffer.drop toRead }, os₁) ∧
      (ccon₂.buffer ≠ [] → 0 < toRead) := by
    refine ⟨if (2000 : ℤ) ≥ 0 ∧ 2000 < (ccon₂.buffer.length : ℤ) then (2000 : ℤ).toNat
      else ccon₂.buffer.length, ?_, fun hne => ?_⟩
    · have hvalid := h.valid
      unfold connectionReadBytes checkValidConn
      rw [if_neg (by omega)]
      dsimp only
      rw [hread]
      dsimp only
      rw [hccon₂]
    · have hpos := List.length_pos_of_ne_nil hne
      split_ifs
      · decide
      · exact hpos
  have hvalid : 0 ≤ ccon₂.handle := hheld₂.handle ▸ h.valid
  have hdrop : unread { ccon₂ with buffer := ccon₂.buffer.drop toRead } os₁ ≤ unread ccon₂ os₁ ∧
      (ccon₂.buffer ≠ [] →
        unread { ccon₂ with buffer := ccon₂.buffer.drop toRead } os₁ < unread ccon₂ os₁) := by
    unfold unread
    dsimp only
    rw [List.length_drop]
    refine ⟨by omega, fun hne => ?_⟩
    have hpos := List.length_pos_of_ne_nil hne
    have htaken := htoRead hne
    omega
  refine ⟨_, _, _, hanswer, ⟨huntouched _ _ _ hanswer, hvalid, hheld₂.sized, hfinal₁⟩,
    fun hset => hends₂ (hends hset), fun hopen => ?_⟩
  rcases hmore with hless | ⟨hsame, hraw⟩
  · exact lt_of_le_of_lt (hdrop.1.trans hle₂) hless
  by_cases hnil : ccon₁.buffer = []
  · have hless := hmore₂ (hsame.trans hopen) (hraw hnil) hnil
    exact lt_of_le_of_lt hdrop.1 (lt_of_lt_of_le hless hle)
  · have hless := hdrop.2 (by rw [hbuffer₂]; exact hnil)
    exact lt_of_lt_of_le hless (hle₂.trans hle)

/-- A match that needs more bytes has fewer of them than there are ranges. -/
theorem length_lt_of_matchTails {ranges : List (UInt8 × UInt8)} {inp : Bytes}
    (h : matchTails ranges inp = none) : inp.length < ranges.length := by
  induction ranges generalizing inp with
  | nil => cases h
  | cons range ranges ih =>
    cases inp with
    | nil => exact Nat.succ_pos _
    | cons b inp =>
      rw [matchTails] at h
      split_ifs at h
      exact Nat.succ_lt_succ (ih h)

/-- An incomplete UTF-8 character has three bytes at most. -/
theorem utf8Decoder_short : Short utf8Decoder := by
  intro st inp h
  have hhead : utf8Head inp = .incomplete := h
  cases inp with
  | nil => decide
  | cons b inp =>
    unfold utf8Head at hhead
    cases htails : utf8Tails b with
    | none => simp [htails] at hhead
    | some ranges =>
      rcases hmatch : matchTails ranges inp with _ | _ | _
      · have hlt := length_lt_of_matchTails hmatch
        have hfew : ranges.length ≤ 3 := by
          rcases utf8Tails_spec b ranges htails with ⟨-, rfl⟩ | ⟨-, -, -, hlen, hle, -⟩
          · exact Nat.zero_le _
          · omega
        rw [List.length_cons]
        omega
      · simp [htails, hmatch] at hhead
      · simp [htails, hmatch] at hhead

end Processx
