import Processx.Connection.Model
import Mathlib.Order.Nat

/-!
# What reading and converting keep

The text of a connection is what its UTF-8 buffer holds, followed by the decoding
of the raw buffer and of all the bytes the operating system still has. Neither a
`read()` nor a conversion changes it: they only move bytes along. Every function
that reads a connection is accounted for through this one invariant.
-/

namespace Processx

open Incremental

variable {σ : Type} {ic : Riconv σ} {d : Decoder σ UInt8 UInt8}

/-- The conversion state, which `Riconv_open()` creates at the first conversion. -/
def Riconv.ctx (ic : Riconv σ) (ccon : Connection σ) : σ := ccon.iconvCtx.getD ic.open_

/-- The text that can still be read from a connection. -/
def pendingText (ic : Riconv σ) (d : Decoder σ UInt8 UInt8) (ccon : Connection σ) (os : Os) :
    Bytes :=
  ccon.utf8 ++ d.decode (ic.ctx ccon) (ccon.buffer ++ os.stream)

/-- The states a text-mode connection can be in, together with the operating system. -/
structure Sound (ccon : Connection σ) (os : Os) : Prop where
  wellFormed : os.WellFormed
  textMode : ccon.rawMode = false
  buffer_le : ccon.buffer.length ≤ ccon.bufferAllocatedSize
  utf8_le : ccon.utf8.length ≤ ccon.utf8AllocatedSize
  unallocated : ccon.bufferAllocatedSize = 0 → ccon.utf8AllocatedSize = 0
  eofRaw : ccon.isEofRaw = true → os.eofReported = true
  eof : ccon.isEof = true → ccon.isEofRaw = true ∧ ccon.buffer = [] ∧ ccon.utf8 = []

/-- A C `int` holds every length below `2^31`. -/
theorem toInt_of_lt {n : ℕ} (h : n < 2 ^ 31) : toInt n = n := by
  unfold toInt
  omega

/-- So a string R gets is exactly the bytes that were asked for. -/
theorem eq_take_of_mkCharLenCE {memory chars : Bytes} {n : ℕ} (h : n < 2 ^ 31)
    (hchars : mkCharLenCE memory (toInt n) = .ok chars) : chars = memory.take n := by
  have hpos : ¬(n : ℤ) < 0 := by omega
  rw [toInt_of_lt h, mkCharLenCE, if_neg hpos, Int.toNat_natCast] at hchars
  by_cases hnul : 0 ∈ memory.take n
  · rw [if_pos hnul] at hchars
    cases hchars
  · rw [if_neg hnul] at hchars
    exact (Except.ok.inj hchars).symm

/-- A string that R makes has all the bytes exactly if their number is an `int`. -/
theorem eq_take_iff_of_mkCharLenCE {memory chars : Bytes} {n : ℕ} (hn : n ≤ memory.length)
    (hchars : mkCharLenCE memory (toInt n) = .ok chars) : chars = memory.take n ↔ n < 2 ^ 31 := by
  refine ⟨fun heq => ?_, fun h => eq_take_of_mkCharLenCE h hchars⟩
  have hlength : chars.length ≤ (toInt n).toNat := by
    unfold mkCharLenCE at hchars
    split_ifs at hchars
    rw [← Except.ok.inj hchars]
    exact List.length_take_le _ _
  rw [heq, List.length_take_of_le hn] at hlength
  unfold toInt at hlength
  split at hlength <;> omega

/-- Nothing is left of the stream once its end has been reported. -/
theorem Os.WellFormed.stream_eq_nil {os : Os} (h : os.WellFormed) (heof : os.eofReported = true) :
    os.stream = [] :=
  h.2.2 heof

/-- What one `read()` does to the stream. -/
structure Os.ReadSpec (os : Os) (todo : ℕ) (result : ReadResult) (os' : Os) : Prop where
  wellFormed : os'.WellFormed
  bytes : ∀ bytes, result = .bytes bytes → os.stream = bytes ++ os'.stream ∧ bytes.length ≤ todo
  other : (∀ bytes, result ≠ .bytes bytes) → os'.stream = os.stream
  eof : result = .bytes [] ∨ result = .eio → os'.eofReported = true
  reported : os.eofReported = true → os'.eofReported = true

/-- `read()` delivers the next bytes of the stream, in order and without loss, and
reports its end only when nothing is left. -/
theorem Os.read_spec {os : Os} {todo : ℕ} (h : os.WellFormed) (htodo : 0 < todo) :
    os.ReadSpec todo (os.read todo).1 (os.read todo).2 := by
  obtain ⟨items, reported⟩ := os
  obtain ⟨hne, hend, hreported⟩ := h
  cases items with
  | nil => constructor <;> simp [Os.read, Os.stream, Os.WellFormed]
  | cons item rest =>
    have hrest : ∀ item ∈ rest, item ≠ .data [] := fun i hi => hne i (List.mem_cons_of_mem _ hi)
    rw [List.pairwise_cons] at hend
    have hnone : item.isEof = true → rest.flatMap ReadItem.bytes = [] := fun hitem =>
      List.flatMap_eq_nil_iff.mpr fun later hlater => hend.1 later hlater hitem
    have hnever : reported = true → item.bytes = [] ∧ rest.flatMap ReadItem.bytes = [] := by
      intro hr
      simpa [Os.stream] using hreported hr
    cases item with
    | data bytes =>
      have hbytes : bytes ≠ [] := fun heq => hne (.data bytes) (by simp) (by rw [heq])
      have hnot : reported = false := by
        by_contra hr
        exact hbytes (hnever (by simpa using hr)).1
      subst hnot
      by_cases hfit : bytes.length ≤ todo
      · simp only [Os.read, if_pos hfit]
        constructor
        · exact ⟨hrest, hend.2, by simp⟩
        · intro got hgot
          have heq : bytes = got := by simpa using hgot
          subst heq
          simp [Os.stream, ReadItem.bytes, hfit]
        · simp
        · simp [hbytes]
        · simp
      · simp only [Os.read, if_neg hfit]
        have hdrop : bytes.drop todo ≠ [] := by
          rw [Ne, List.drop_eq_nil_iff]
          exact hfit
        constructor
        · refine ⟨?_, List.pairwise_cons.mpr ⟨by simp [ReadItem.isEof], hend.2⟩, by simp⟩
          intro i hi
          rcases List.mem_cons.mp hi with rfl | hi
          · simpa using hdrop
          · exact hrest i hi
        · intro got hgot
          have heq : bytes.take todo = got := by simpa using hgot
          subst heq
          refine ⟨by simp [Os.stream, ReadItem.bytes, ← List.append_assoc], ?_⟩
          rw [List.length_take]
          exact Nat.min_le_left _ _
        · simp
        · intro heof
          have htake : bytes.take todo = [] := by simpa using heof
          simp only [List.take_eq_nil_iff] at htake
          rcases htake with hzero | hnil
          · omega
          · exact absurd hnil hbytes
        · simp
    | eagain =>
      constructor <;> simp_all [Os.read, Os.stream, ReadItem.bytes, Os.WellFormed]
    | error =>
      constructor <;> simp_all [Os.read, Os.stream, ReadItem.bytes, Os.WellFormed]
    | eof =>
      constructor <;>
        simp_all [Os.read, Os.stream, ReadItem.bytes, ReadItem.isEof, Os.WellFormed]
    | eio =>
      constructor <;>
        simp_all [Os.read, Os.stream, ReadItem.bytes, ReadItem.isEof, Os.WellFormed]

/-- The rounds of the conversion loop move text from the input to the output, as
long as nothing can follow the input when its end has been seen. -/
theorem toUtf8Loop_spec (hic : ic.Follows d) (isEofRaw : Bool) {rounds : ℕ} (st : σ)
    {inbuf : Bytes} (hrounds : inbuf.length ≤ rounds) (room : ℕ) (acc : Bytes) :
    ∃ inbuf' out st', toUtf8Loop ic isEofRaw rounds st inbuf room acc = (inbuf', acc ++ out, st') ∧
      inbuf'.length ≤ inbuf.length ∧ out.length ≤ room ∧
      (out ≠ [] → inbuf'.length < inbuf.length) ∧
      ∀ more, (isEofRaw = true → more = []) →
        d.decode st (inbuf ++ more) = out ++ d.decode st' (inbuf' ++ more) := by
  induction rounds generalizing st inbuf room acc with
  | zero => exact ⟨inbuf, [], st, by simp [toUtf8Loop]⟩
  | succ rounds ih =>
    have hconv := d.convert_sound room st inbuf
    rw [toUtf8Loop, hic st inbuf room]
    generalize d.convert room st inbuf = c at hconv ⊢
    have hconsumed := hconv.consumed_le
    have hleft : (inbuf.drop c.consumed).length = inbuf.length - c.consumed := List.length_drop
    have hprogress : c.out ≠ [] → (inbuf.drop c.consumed).length < inbuf.length := by
      intro hout
      have := hconv.progress hout
      omega
    cases hstop : c.stop with
    | done =>
      exact ⟨_, c.out, c.next, rfl, by omega, hconv.out_le, hprogress,
        fun more _ => hconv.decode_append more⟩
    | full =>
      exact ⟨_, c.out, c.next, rfl, by omega, hconv.out_le, hprogress,
        fun more _ => hconv.decode_append more⟩
    | incomplete =>
      cases isEofRaw with
      | false =>
        exact ⟨_, c.out, c.next, rfl, by omega, hconv.out_le, hprogress,
          fun more _ => hconv.decode_append more⟩
      | true =>
        -- the dropped bytes are an incomplete character, which decodes to nothing
        refine ⟨[], c.out, c.next, rfl, by simp, hconv.out_le, ?_, fun more hmore => ?_⟩
        · intro hout
          have := hconv.progress hout
          simp only [List.length_nil]
          omega
        · rw [hmore rfl, hconv.decode_append, List.append_nil,
            Decoder.decode_of_incomplete (hconv.incomplete hstop)]
          simp
    | invalid =>
      have hhead := hconv.invalid hstop
      have hpos := List.length_pos_of_ne_nil (Decoder.ne_nil_of_head_invalid hhead)
      have hskip : ∀ more, d.decode st (inbuf ++ more) =
          c.out ++ d.decode c.next ((inbuf.drop c.consumed).drop 1 ++ more) := by
        intro more
        rw [hconv.decode_append, Decoder.decode_of_invalid (d.invalid_append more hhead),
          List.drop_append_of_le_length (by omega)]
      have hrest : ((inbuf.drop c.consumed).drop 1).length < inbuf.length := by
        rw [List.length_drop]
        omega
      by_cases hmore : ((inbuf.drop c.consumed).drop 1).length > 0
      · obtain ⟨inbuf', out, st', heq, hlen, hout, _, hdecode⟩ :=
          ih c.next (Nat.le_of_lt_succ (lt_of_lt_of_le hrest hrounds))
            (room - c.out.length) (acc ++ c.out)
        have hroom := hconv.out_le
        refine ⟨inbuf', c.out ++ out, st', ?_, by omega, ?_, fun _ => by omega, ?_⟩
        · simp only [if_pos hmore, heq, List.append_assoc]
        · rw [List.length_append]
          omega
        · intro more hnil
          rw [hskip, hdecode more hnil, List.append_assoc]
      · exact ⟨_, c.out, c.next, by simp only [if_neg hmore], by omega, hconv.out_le,
          fun _ => hrest, fun more _ => hskip more⟩

/-- A conversion moves some text from the raw to the UTF-8 buffer. -/
theorem connectionToUtf8_spec (hic : ic.Follows d) (ccon : Connection σ) :
    ∃ inbuf out st, connectionToUtf8 ic ccon = (out.length,
        { ccon with iconvCtx := some st, buffer := inbuf, utf8 := ccon.utf8 ++ out }) ∧
      inbuf.length ≤ ccon.buffer.length ∧
      out.length ≤ ccon.utf8AllocatedSize - ccon.utf8.length ∧
      (out ≠ [] → inbuf.length < ccon.buffer.length) ∧
      ∀ more, (ccon.isEofRaw = true → more = []) →
        d.decode (ic.ctx ccon) (ccon.buffer ++ more) = out ++ d.decode st (inbuf ++ more) := by
  by_cases hnothing : ccon.buffer.length = 0 ∨
      ccon.utf8AllocatedSize - ccon.utf8.length = 0
  · refine ⟨ccon.buffer, [], ic.ctx ccon, ?_, le_refl _, by simp, by simp, by simp⟩
    simp only [connectionToUtf8, if_pos hnothing, Riconv.ctx, List.length_nil, List.append_nil]
  · obtain ⟨inbuf, out, st, heq, hspec⟩ := toUtf8Loop_spec hic ccon.isEofRaw (ic.ctx ccon)
      (le_refl ccon.buffer.length) (ccon.utf8AllocatedSize - ccon.utf8.length) []
    refine ⟨inbuf, out, st, ?_, hspec⟩
    rw [Riconv.ctx] at heq
    simp only [connectionToUtf8, if_neg hnothing, heq, List.nil_append]

/-- A step that only moves text along: from the operating system to the raw buffer
and from there to the end of the UTF-8 buffer. -/
structure Moves (ic : Riconv σ) (d : Decoder σ UInt8 UInt8) (ccon : Connection σ) (os : Os)
    (newBytes : ℕ) (ccon' : Connection σ) (os' : Os) : Prop where
  sound : Sound ccon' os'
  handle : ccon'.handle = ccon.handle
  text : pendingText ic d ccon' os' = pendingText ic d ccon os
  utf8 : ∃ out, ccon'.utf8 = ccon.utf8 ++ out ∧ out.length = newBytes
  room : ccon'.utf8AllocatedSize = ccon.utf8AllocatedSize ∨
    ccon.utf8AllocatedSize = 0 ∧ ccon'.utf8AllocatedSize = 64 * 1024
  rest_le : ccon'.buffer.length + os'.stream.length ≤ ccon.buffer.length + os.stream.length
  progress : 0 < newBytes →
    ccon'.buffer.length + os'.stream.length < ccon.buffer.length + os.stream.length

/-- Nothing moved. -/
theorem Moves.refl {ccon : Connection σ} {os : Os} (h : Sound ccon os) :
    Moves ic d ccon os 0 ccon os where
  sound := h
  handle := rfl
  text := rfl
  utf8 := ⟨[], by simp⟩
  room := Or.inl rfl
  rest_le := le_refl _
  progress := fun h => absurd h (lt_irrefl 0)

/-- A conversion in a sound state moves text along. -/
theorem connectionToUtf8_moves (hic : ic.Follows d) {ccon : Connection σ} {os : Os}
    (h : Sound ccon os) :
    Moves ic d ccon os (connectionToUtf8 ic ccon).1 (connectionToUtf8 ic ccon).2 os := by
  obtain ⟨inbuf, out, st, heq, hlen, hroom, hprogress, hdecode⟩ := connectionToUtf8_spec hic ccon
  rw [heq]
  have hbuffer := h.buffer_le
  have hutf8 := h.utf8_le
  have hstream : ccon.isEofRaw = true → os.stream = [] :=
    fun heof => h.wellFormed.stream_eq_nil (h.eofRaw heof)
  constructor
  · refine ⟨h.wellFormed, h.textMode, by dsimp only; omega, ?_, h.unallocated, h.eofRaw, ?_⟩
    · simp only [List.length_append]
      omega
    · intro heof
      obtain ⟨hraw, hnil, htext⟩ := h.eof heof
      have hinbuf : inbuf = [] := List.length_eq_zero_iff.mp (by simpa [hnil] using hlen)
      have hout : out = [] := by
        by_contra hne
        simpa [hnil] using hprogress hne
      exact ⟨hraw, hinbuf, by simp [htext, hout]⟩
  · rfl
  · rw [pendingText, pendingText, hdecode os.stream hstream]
    simp [Riconv.ctx]
  · exact ⟨out, rfl, rfl⟩
  · exact Or.inl rfl
  · dsimp only
    omega
  · intro hpos
    have := hprogress (List.ne_nil_of_length_pos hpos)
    dsimp only
    omega

/-- The conversion at the end of a read moves text along. -/
theorem convertNew_moves (hic : ic.Follows d) {ccon : Connection σ} {os : Os}
    (h : Sound ccon os) :
    Moves ic d ccon os (convertNew ic ccon).1 (convertNew ic ccon).2 os := by
  unfold convertNew
  by_cases hconv : !ccon.rawMode ∧ ccon.buffer.length > 0
  · simpa only [if_pos hconv] using connectionToUtf8_moves hic h
  · have hnil : ccon.buffer = [] := by
      have htext := h.textMode
      simpa [htext] using hconv
    rw [if_neg hconv, hnil]
    exact Moves.refl h

/-- Allocating the buffers changes nothing that can be read. -/
theorem Sound.alloc {ccon : Connection σ} {os : Os} (h : Sound ccon os)
    (hnone : ccon.bufferAllocatedSize = 0) :
    ccon.buffer = [] ∧ ccon.utf8 = [] ∧ Sound (connectionAlloc ccon) os := by
  have hbuffer := h.buffer_le
  have hutf8 := h.utf8_le
  rw [hnone] at hbuffer
  rw [h.unallocated hnone] at hutf8
  have hraw : ccon.buffer = [] := List.length_eq_zero_iff.mp (by omega)
  have htext : ccon.utf8 = [] := List.length_eq_zero_iff.mp (by omega)
  refine ⟨hraw, htext, h.wellFormed, h.textMode, by simp [connectionAlloc],
    by simp [connectionAlloc], by simp [connectionAlloc], h.eofRaw, ?_⟩
  intro heof
  exact ⟨(h.eof heof).1, rfl, rfl⟩

/-- The operating system went on without delivering anything. -/
theorem Sound.next {ccon : Connection σ} {os os' : Os} (h : Sound ccon os)
    (hwf : os'.WellFormed) (hreported : os.eofReported = true → os'.eofReported = true) :
    Sound ccon os' :=
  { h with wellFormed := hwf, eofRaw := fun hraw => hreported (h.eofRaw hraw) }

/-- The raw buffer takes what `read()` delivered. -/
theorem Sound.append {ccon : Connection σ} {os os' : Os} {bytes : Bytes} (h : Sound ccon os)
    (hwf : os'.WellFormed) (hreported : os.eofReported = true → os'.eofReported = true)
    (hbytes : bytes.length ≤ ccon.bufferAllocatedSize - ccon.buffer.length)
    (hlive : bytes ≠ [] → ccon.isEofRaw = false) :
    Sound { ccon with buffer := ccon.buffer ++ bytes } os' := by
  have hbuffer := h.buffer_le
  refine ⟨hwf, h.textMode, ?_, h.utf8_le, h.unallocated, fun hr => hreported (h.eofRaw hr), ?_⟩
  · rw [List.length_append]
    dsimp only
    omega
  · intro heof
    obtain ⟨hraw, hnil, htext⟩ := h.eof heof
    refine ⟨hraw, ?_, htext⟩
    have hnone : bytes = [] := by
      by_contra hne
      simp [hlive hne] at hraw
    simp [hnil, hnone]

/-- The end of the file has been reported. -/
theorem Sound.markEofRaw {ccon : Connection σ} {os os' : Os} (h : Sound ccon os)
    (hwf : os'.WellFormed) (heof : os'.eofReported = true) : Sound (markEofRaw ccon) os' := by
  refine ⟨hwf, h.textMode, h.buffer_le, h.utf8_le, h.unallocated, fun _ => heof, ?_⟩
  intro hset
  simp only [Processx.markEofRaw, Bool.or_eq_true, Bool.and_eq_true, List.isEmpty_iff] at hset
  rcases hset with hset | hset
  · exact ⟨rfl, (h.eof hset).2⟩
  · exact ⟨rfl, hset.2, hset.1⟩

/-- Taking bytes off the front of the UTF-8 buffer keeps a state sound. -/
theorem Sound.dropUtf8 {ccon : Connection σ} {os : Os} (h : Sound ccon os) (bytes : ℕ) :
    Sound (dropUtf8 ccon bytes) os := by
  refine ⟨h.wellFormed, h.textMode, h.buffer_le, ?_, h.unallocated, h.eofRaw, fun heof => ?_⟩
  · have hle := h.utf8_le
    simp only [Processx.dropUtf8, List.length_drop]
    omega
  · obtain ⟨hraw, hnil, htext⟩ := h.eof heof
    exact ⟨hraw, hnil, by simp [Processx.dropUtf8, htext]⟩

/-- What happens before the conversion is a move of no text: the bytes went from the
operating system to the raw buffer, and at most flags and allocations changed. -/
theorem Moves.of_same_text {ccon ccon₁ ccon' : Connection σ} {os os₁ os' : Os} {newBytes : ℕ}
    (h : Moves ic d ccon₁ os₁ newBytes ccon' os') (hhandle : ccon₁.handle = ccon.handle)
    (hctx : ccon₁.iconvCtx = ccon.iconvCtx) (hutf8 : ccon₁.utf8 = ccon.utf8)
    (hraw : ccon₁.buffer ++ os₁.stream = ccon.buffer ++ os.stream)
    (hroom : ccon₁.utf8AllocatedSize = ccon.utf8AllocatedSize ∨
      ccon.utf8AllocatedSize = 0 ∧ ccon₁.utf8AllocatedSize = 64 * 1024) :
    Moves ic d ccon os newBytes ccon' os' := by
  have hlen : ccon₁.buffer.length + os₁.stream.length =
      ccon.buffer.length + os.stream.length := by
    simpa only [List.length_append] using congrArg List.length hraw
  constructor
  · exact h.sound
  · rw [h.handle, hhandle]
  · rw [h.text, pendingText, pendingText, hutf8, hraw, Riconv.ctx, Riconv.ctx, hctx]
  · simpa only [hutf8] using h.utf8
  · have := h.room
    omega
  · have := h.rest_le
    omega
  · intro hpos
    have := h.progress hpos
    omega

/-- **One read.** `processx__connection_read()` moves text along, also when it throws;
then it has moved nothing into the UTF-8 buffer. -/
theorem connectionRead_moves (hic : ic.Follows d) {ccon : Connection σ} {os : Os}
    (h : Sound ccon os) :
    ∃ newBytes, Moves ic d ccon os newBytes (connectionRead ic ccon os).2.1
        (connectionRead ic ccon os).2.2 ∧
      ∀ n, (connectionRead ic ccon os).1 = .ok n → n = newBytes := by
  unfold connectionRead
  by_cases hdone : ccon.isEofRaw ∧ ccon.buffer.length = 0
  · -- nothing to read and nothing to convert
    simp only [if_pos hdone]
    refine ⟨0, ?_, fun n hn => (Except.ok.inj hn).symm⟩
    by_cases htext : ccon.utf8.length = 0
    · simp only [if_pos htext]
      have hset : Sound { ccon with isEof := true } os :=
        ⟨h.wellFormed, h.textMode, h.buffer_le, h.utf8_le, h.unallocated, h.eofRaw, fun _ =>
          ⟨hdone.1, List.length_eq_zero_iff.mp hdone.2, List.length_eq_zero_iff.mp htext⟩⟩
      exact (Moves.refl hset).of_same_text rfl rfl rfl rfl (Or.inl rfl)
    · simp only [if_neg htext]
      exact Moves.refl h
  · simp only [if_neg hdone]
    obtain ⟨ccon₁, hccon₁, h₁, hhandle, hctx, hutf8, hbuffer, hraw, hroom⟩ :
        ∃ ccon₁, (if ccon.bufferAllocatedSize = 0 then connectionAlloc ccon else ccon) = ccon₁ ∧
          Sound ccon₁ os ∧ ccon₁.handle = ccon.handle ∧ ccon₁.iconvCtx = ccon.iconvCtx ∧
          ccon₁.utf8 = ccon.utf8 ∧ ccon₁.buffer = ccon.buffer ∧ ccon₁.isEofRaw = ccon.isEofRaw ∧
          (ccon₁.utf8AllocatedSize = ccon.utf8AllocatedSize ∨
            ccon.utf8AllocatedSize = 0 ∧ ccon₁.utf8AllocatedSize = 64 * 1024) := by
      by_cases hnone : ccon.bufferAllocatedSize = 0
      · obtain ⟨hnil, htext, hsound⟩ := h.alloc hnone
        exact ⟨connectionAlloc ccon, if_pos hnone, hsound, rfl, rfl, htext.symm, hnil.symm, rfl,
          Or.inr ⟨h.unallocated hnone, rfl⟩⟩
      · exact ⟨ccon, if_neg hnone, h, rfl, rfl, rfl, rfl, rfl, Or.inl rfl⟩
    rw [hccon₁]
    by_cases hfull : ccon₁.bufferAllocatedSize - ccon₁.buffer.length = 0
    · simp only [if_pos hfull]
      exact ⟨_, (connectionToUtf8_moves hic h₁).of_same_text hhandle hctx hutf8 (by rw [hbuffer])
        hroom, fun n hn => (Except.ok.inj hn).symm⟩
    · simp only [if_neg hfull]
      have hread := Os.read_spec h.wellFormed (Nat.pos_of_ne_zero hfull)
      generalize os.read (ccon₁.bufferAllocatedSize - ccon₁.buffer.length) = answer at hread ⊢
      obtain ⟨result, os'⟩ := answer
      cases result with
      | bytes bytes =>
        obtain ⟨hstream, hfit⟩ := hread.bytes bytes rfl
        refine ⟨_, ?_, fun n hn => (Except.ok.inj hn).symm⟩
        by_cases hnil : bytes.length = 0
        · have hzero := List.length_eq_zero_iff.mp hnil
          subst hzero
          have hmark := h₁.markEofRaw hread.wellFormed (hread.eof (Or.inl rfl))
          simp only [List.length_nil, if_true, List.append_nil]
          exact (convertNew_moves hic hmark).of_same_text hhandle hctx hutf8
            (by simp [Processx.markEofRaw, hbuffer, hstream]) hroom
        · have hlive : bytes ≠ [] → ccon₁.isEofRaw = false := by
            intro hne
            by_contra hset
            have hend := h.wellFormed.stream_eq_nil (h₁.eofRaw (by simpa using hset))
            rw [hstream] at hend
            exact hne (List.append_eq_nil_iff.mp hend).1
          have happend := h₁.append hread.wellFormed hread.reported hfit hlive
          simp only [if_neg hnil]
          exact (convertNew_moves hic happend).of_same_text hhandle hctx hutf8
            (by simp [hbuffer, hstream]) hroom
      | eagain =>
        have hstream := hread.other (by simp)
        have hsame := h₁.next hread.wellFormed hread.reported
        exact ⟨_, (convertNew_moves hic hsame).of_same_text hhandle hctx hutf8
          (by rw [hbuffer, hstream]) hroom, fun n hn => (Except.ok.inj hn).symm⟩
      | eio =>
        have hstream := hread.other (by simp)
        have hmark := h₁.markEofRaw hread.wellFormed (hread.eof (Or.inr rfl))
        exact ⟨_, (convertNew_moves hic hmark).of_same_text hhandle hctx hutf8
          (by simp [Processx.markEofRaw, hbuffer, hstream]) hroom,
          fun n hn => (Except.ok.inj hn).symm⟩
      | error =>
        have hstream := hread.other (by simp)
        have hsame := h₁.next hread.wellFormed hread.reported
        exact ⟨0, (Moves.refl hsame).of_same_text hhandle hctx hutf8
          (by rw [hbuffer, hstream]) hroom,
          by simp⟩

/-- Polling a connection at most converts. -/
theorem prePollConnection_moves (hic : ic.Follows d) {ccon : Connection σ} {os : Os}
    (h : Sound ccon os) :
    ∃ newBytes, Moves ic d ccon os newBytes (prePollConnection ic ccon).2 os := by
  have hconv := connectionToUtf8_moves hic h
  have hnone : Moves ic d ccon os 0 ccon os := Moves.refl h
  unfold prePollConnection
  dsimp only
  split_ifs <;> first | exact ⟨_, hnone⟩ | exact ⟨_, hconv⟩

end Processx
