import Mathlib.Data.List.Basic
import Mathlib.Tactic.Common

/-!
# Incremental decoders

A decoder reads characters off the front of an input, possibly through a shift
state. Its laws say that a decision about the first character is final: more
input never turns a character or an invalid start into something else, only an
incomplete start may still change. Under these laws decoding a prefix now and
the rest later gives the same text as decoding everything at once, whatever the
output room was. The input and output symbols and the shift states are arbitrary.
-/

namespace Incremental

variable {σ β γ : Type}

/-- How an input begins: with a character of `length` symbols that decodes to
`out` and moves the decoder to `next`, with an invalid symbol, or with something
that may still become a character. -/
inductive Head (σ γ : Type)
  | char (length : ℕ) (out : List γ) (next : σ)
  | invalid
  | incomplete
  deriving DecidableEq

/-- A decoder whose decisions about complete and invalid starts are final. -/
structure Decoder (σ β γ : Type) where
  /-- The first character of an input in a given shift state. -/
  head : σ → List β → Head σ γ
  /-- An empty input may still become anything. -/
  head_nil : ∀ st, head st [] = .incomplete
  /-- A character has at least one symbol and lies within the input. -/
  char_length : ∀ {st inp len out next}, head st inp = .char len out next →
    0 < len ∧ len ≤ inp.length
  /-- A complete character does not depend on what follows it. -/
  char_append : ∀ {st inp len out next} (more : List β), head st inp = .char len out next →
    head st (inp ++ more) = .char len out next
  /-- No continuation repairs an invalid start. -/
  invalid_append : ∀ {st inp} (more : List β), head st inp = .invalid →
    head st (inp ++ more) = .invalid

/-- Why a conversion stopped. -/
inductive Stop
  | done
  | full
  | invalid
  | incomplete
  deriving DecidableEq, Repr

/-- The result of one bounded conversion: the shift state it leaves, how many
input symbols it consumed, what it wrote and why it stopped. -/
structure Conversion (σ γ : Type) where
  next : σ
  consumed : ℕ
  out : List γ
  stop : Stop
  deriving DecidableEq

namespace Decoder

variable (d : Decoder σ β γ)

/-- `decode` with a bound on the number of characters and skipped symbols. -/
def decodeWithin : ℕ → σ → List β → List γ
  | 0, _, _ => []
  | n + 1, st, inp =>
    match d.head st inp with
    | .char len out next => out ++ decodeWithin n next (inp.drop len)
    | .invalid => decodeWithin n st (inp.drop 1)
    | .incomplete => []

/-- The text of a whole input: characters are decoded, invalid symbols are
skipped one at a time, and an incomplete character at the end is dropped. -/
def decode (st : σ) (inp : List β) : List γ := d.decodeWithin inp.length st inp

/-- `convert` with a bound on the number of characters. -/
def convertWithin : ℕ → ℕ → σ → List β → Conversion σ γ
  | 0, _, st, inp => ⟨st, 0, [], if inp.isEmpty then .done else .full⟩
  | n + 1, room, st, inp =>
    if inp.isEmpty then ⟨st, 0, [], .done⟩
    else match d.head st inp with
    | .char len out next =>
      if out.length ≤ room then
        let rest := convertWithin n (room - out.length) next (inp.drop len)
        ⟨rest.next, len + rest.consumed, out ++ rest.out, rest.stop⟩
      else ⟨st, 0, [], .full⟩
    | .invalid => ⟨st, 0, [], .invalid⟩
    | .incomplete => ⟨st, 0, [], .incomplete⟩

/-- Convert the longest run of complete characters that fits in `room` symbols,
and report what the input goes on with. -/
def convert (room : ℕ) (st : σ) (inp : List β) : Conversion σ γ :=
  d.convertWithin inp.length room st inp

variable {d}

/-- An invalid start is not the end of the input. -/
theorem ne_nil_of_head_invalid {st : σ} {inp : List β} (h : d.head st inp = .invalid) :
    inp ≠ [] := by
  rintro rfl
  simp [d.head_nil] at h

/-- Any bound from the input length on gives the same text. -/
theorem decodeWithin_eq_decode {n : ℕ} {st : σ} {inp : List β} (hn : inp.length ≤ n) :
    d.decodeWithin n st inp = d.decode st inp := by
  suffices h : ∀ m n st (inp : List β), inp.length ≤ m → inp.length ≤ n →
      d.decodeWithin n st inp = d.decodeWithin m st inp from h _ _ _ _ (Nat.le_refl _) hn
  intro m
  induction m with
  | zero =>
    intro n st inp hm _
    have hnil : inp = [] := List.length_eq_zero_iff.mp (by omega)
    subst hnil
    cases n with
    | zero => rfl
    | succ n => simp [decodeWithin, d.head_nil]
  | succ m ih =>
    intro n st inp hm hn
    cases n with
    | zero =>
      have hnil : inp = [] := List.length_eq_zero_iff.mp (by omega)
      subst hnil
      simp [decodeWithin, d.head_nil]
    | succ n =>
      simp only [decodeWithin]
      cases hhead : d.head st inp with
      | char len out next =>
        have hlen := d.char_length hhead
        have hdrop : (inp.drop len).length < inp.length := by
          rw [List.length_drop]
          omega
        exact congrArg (out ++ ·) (ih n next (inp.drop len) (by omega) (by omega))
      | invalid =>
        have hpos : 0 < inp.length := List.length_pos_of_ne_nil (ne_nil_of_head_invalid hhead)
        have hdrop : (inp.drop 1).length < inp.length := by
          rw [List.length_drop]
          omega
        exact ih n st (inp.drop 1) (by omega) (by omega)
      | incomplete => rfl

/-- Nothing decodes to nothing. -/
@[simp] theorem decode_nil (st : σ) : d.decode st [] = [] := rfl

/-- A complete first character is decoded and the rest follows. -/
theorem decode_of_char {st next : σ} {inp : List β} {len : ℕ} {out : List γ}
    (h : d.head st inp = .char len out next) :
    d.decode st inp = out ++ d.decode next (inp.drop len) := by
  have hlen := d.char_length h
  obtain ⟨n, hn⟩ : ∃ n, inp.length = n + 1 := ⟨inp.length - 1, by omega⟩
  have hdrop : (inp.drop len).length ≤ n := by
    rw [List.length_drop]
    omega
  conv_lhs => unfold decode
  rw [hn, decodeWithin, h]
  simp only [decodeWithin_eq_decode hdrop]

/-- An invalid first symbol is skipped. -/
theorem decode_of_invalid {st : σ} {inp : List β} (h : d.head st inp = .invalid) :
    d.decode st inp = d.decode st (inp.drop 1) := by
  have hpos := List.length_pos_of_ne_nil (ne_nil_of_head_invalid h)
  obtain ⟨n, hn⟩ : ∃ n, inp.length = n + 1 := ⟨inp.length - 1, by omega⟩
  have hdrop : (inp.drop 1).length ≤ n := by
    rw [List.length_drop]
    omega
  conv_lhs => unfold decode
  rw [hn, decodeWithin, h]
  simp only [decodeWithin_eq_decode hdrop]

/-- An incomplete character at the end of the input is dropped. -/
theorem decode_of_incomplete {st : σ} {inp : List β} (h : d.head st inp = .incomplete) :
    d.decode st inp = [] := by
  cases hinp : inp with
  | nil => rfl
  | cons b inp =>
    rw [hinp] at h
    unfold decode
    rw [List.length_cons, decodeWithin, h]

/-- What a bounded conversion guarantees about the input `inp` it was given: the
room is respected, the rest of the input explains why it stopped, and whatever
comes later, decoding all of it is the same as taking the output and decoding on. -/
structure Conversion.Sound (d : Decoder σ β γ) (room : ℕ) (st : σ) (inp : List β)
    (c : Conversion σ γ) : Prop where
  consumed_le : c.consumed ≤ inp.length
  out_le : c.out.length ≤ room
  done : c.stop = .done → c.consumed = inp.length
  invalid : c.stop = .invalid → d.head c.next (inp.drop c.consumed) = .invalid
  incomplete : c.stop = .incomplete → d.head c.next (inp.drop c.consumed) = .incomplete
  progress : c.out ≠ [] → 0 < c.consumed
  decode_append : ∀ more, d.decode st (inp ++ more) =
    c.out ++ d.decode c.next (inp.drop c.consumed ++ more)

/-- The conversion within some room is a sound one. -/
private theorem convertWithin_sound (n room : ℕ) (st : σ) (inp : List β) :
    Conversion.Sound d room st inp (d.convertWithin n room st inp) := by
  induction n generalizing room st inp with
  | zero =>
    cases hinp : inp with
    | nil => constructor <;> simp [convertWithin]
    | cons b inp => constructor <;> simp [convertWithin]
  | succ n ih =>
    simp only [convertWithin]
    by_cases hempty : inp.isEmpty = true
    · have hnil := List.isEmpty_iff.mp hempty
      subst hnil
      constructor <;> simp
    · rw [if_neg hempty]
      cases hhead : d.head st inp with
      | incomplete => constructor <;> simp [hhead]
      | invalid => constructor <;> simp [hhead]
      | char len out next =>
        have hlen := d.char_length hhead
        by_cases hroom : out.length ≤ room
        · simp only [if_pos hroom]
          have hrest := ih (room - out.length) next (inp.drop len)
          have hconsumed := hrest.consumed_le
          rw [List.length_drop] at hconsumed
          constructor
          · dsimp only
            omega
          · have hout := hrest.out_le
            simp only [List.length_append]
            omega
          · intro hstop
            have hdone := hrest.done hstop
            rw [List.length_drop] at hdone
            dsimp only
            omega
          · intro hstop
            simpa [List.drop_drop] using hrest.invalid hstop
          · intro hstop
            simpa [List.drop_drop] using hrest.incomplete hstop
          · intro _
            dsimp only
            omega
          · intro more
            have hfirst := decode_of_char (d.char_append more hhead)
            rw [hfirst, List.drop_append_of_le_length hlen.2, hrest.decode_append more]
            simp [List.drop_drop]
        · simp only [if_neg hroom]
          constructor <;> simp

/-- A bounded conversion keeps all its promises, whatever the room. -/
theorem convert_sound (room : ℕ) (st : σ) (inp : List β) :
    Conversion.Sound d room st inp (d.convert room st inp) :=
  convertWithin_sound _ _ _ _

/-- A conversion that stops for want of room stops in front of a character that needs more. -/
theorem convert_full {room : ℕ} {st : σ} {inp : List β} (h : (d.convert room st inp).stop = .full) :
    ∃ len out next, d.head (d.convert room st inp).next
      (inp.drop (d.convert room st inp).consumed) = .char len out next ∧ out ≠ [] := by
  suffices hwithin : ∀ n room st (inp : List β), inp.length ≤ n →
      (d.convertWithin n room st inp).stop = .full →
      ∃ len out next, d.head (d.convertWithin n room st inp).next
        (inp.drop (d.convertWithin n room st inp).consumed) = .char len out next ∧ out ≠ [] from
    hwithin _ _ _ _ (Nat.le_refl _) h
  clear h room st inp
  intro n
  induction n with
  | zero =>
    intro room st inp hn hstop
    have hnil : inp = [] := List.length_eq_zero_iff.mp (by omega)
    simp [convertWithin, hnil] at hstop
  | succ n ih =>
    intro room st inp hn hstop
    simp only [convertWithin] at hstop ⊢
    by_cases hempty : inp.isEmpty = true
    · rw [if_pos hempty] at hstop
      cases hstop
    · rw [if_neg hempty] at hstop ⊢
      cases hhead : d.head st inp with
      | incomplete =>
        simp only [hhead] at hstop
        cases hstop
      | invalid =>
        simp only [hhead] at hstop
        cases hstop
      | char len out next =>
        have hlen := d.char_length hhead
        simp only [hhead] at hstop ⊢
        by_cases hroom : out.length ≤ room
        · rw [if_pos hroom] at hstop ⊢
          have hrest := ih (room - out.length) next (inp.drop len) (by
            rw [List.length_drop]
            omega) hstop
          rwa [List.drop_drop] at hrest
        · rw [if_neg hroom] at hstop ⊢
          refine ⟨len, out, next, by simpa using hhead, ?_⟩
          rintro rfl
          exact hroom (Nat.zero_le _)

/-- A conversion that finds more than an incomplete start, and has room for a first character, takes
something or stops at an invalid symbol. -/
theorem convert_progress {room : ℕ} {st : σ} {inp : List β} (hhead : d.head st inp ≠ .incomplete)
    (hroom : ∀ len out next, d.head st inp = .char len out next → out.length ≤ room) :
    0 < (d.convert room st inp).consumed ∨ (d.convert room st inp).stop = .invalid := by
  have hne : inp ≠ [] := by
    rintro rfl
    exact hhead (d.head_nil st)
  obtain ⟨n, hn⟩ : ∃ n, inp.length = n + 1 :=
    ⟨inp.length - 1, by have := List.length_pos_of_ne_nil hne; omega⟩
  rw [convert, hn, convertWithin, if_neg (by simpa using hne)]
  cases hfirst : d.head st inp with
  | incomplete => exact absurd hfirst hhead
  | invalid => exact Or.inr rfl
  | char len out next =>
    have hlen := d.char_length hfirst
    refine Or.inl ?_
    simp only [if_pos (hroom len out next hfirst)]
    omega

/-- A first character that fits is converted. -/
theorem convert_out_prefix {room : ℕ} {st : σ} {inp : List β} {len : ℕ} {out : List γ} {next : σ}
    (h : d.head st inp = .char len out next) (hroom : out.length ≤ room) :
    out <+: (d.convert room st inp).out := by
  have hlen := d.char_length h
  obtain ⟨n, hn⟩ : ∃ n, inp.length = n + 1 := ⟨inp.length - 1, by omega⟩
  have hempty : ¬inp.isEmpty = true := by
    rw [List.isEmpty_iff]
    rintro rfl
    cases hn
  rw [convert, hn, convertWithin, if_neg hempty, h]
  simp only [if_pos hroom]
  exact List.prefix_append _ _

/-- `cut` with a bound on the number of characters and skipped symbols. -/
def cutWithin (d : Decoder σ β γ) : ℕ → σ → List β → Bool
  | 0, _, _ => false
  | n + 1, st, inp =>
    match d.head st inp with
    | .char len _ next => cutWithin d n next (inp.drop len)
    | .invalid => cutWithin d n st (inp.drop 1)
    | .incomplete => !inp.isEmpty

/-- Does an input end in the middle of a character? -/
def cut (d : Decoder σ β γ) (st : σ) (inp : List β) : Bool := d.cutWithin inp.length st inp

/-- Any bound from the input length on gives the same answer. -/
theorem cutWithin_eq_cut {n : ℕ} {st : σ} {inp : List β} (hn : inp.length ≤ n) :
    d.cutWithin n st inp = d.cut st inp := by
  suffices h : ∀ m n st (inp : List β), inp.length ≤ m → inp.length ≤ n →
      d.cutWithin n st inp = d.cutWithin m st inp from h _ _ _ _ (Nat.le_refl _) hn
  intro m
  induction m with
  | zero =>
    intro n st inp hm _
    have hnil : inp = [] := List.length_eq_zero_iff.mp (by omega)
    subst hnil
    cases n with
    | zero => rfl
    | succ n => simp [cutWithin, d.head_nil]
  | succ m ih =>
    intro n st inp hm hn
    cases n with
    | zero =>
      have hnil : inp = [] := List.length_eq_zero_iff.mp (by omega)
      subst hnil
      simp [cutWithin, d.head_nil]
    | succ n =>
      simp only [cutWithin]
      cases hhead : d.head st inp with
      | char len out next =>
        have hlen := d.char_length hhead
        exact ih n next (inp.drop len) (by rw [List.length_drop]; omega)
          (by rw [List.length_drop]; omega)
      | invalid =>
        exact ih n st (inp.drop 1) (by rw [List.length_drop]; omega)
          (by rw [List.length_drop]; omega)
      | incomplete => rfl

/-- Nothing ends in the middle of nothing. -/
@[simp] theorem cut_nil (st : σ) : d.cut st [] = false := rfl

/-- A complete first character changes nothing about the end. -/
theorem cut_of_char {st next : σ} {inp : List β} {len : ℕ} {out : List γ}
    (h : d.head st inp = .char len out next) : d.cut st inp = d.cut next (inp.drop len) := by
  have hlen := d.char_length h
  obtain ⟨n, hn⟩ : ∃ n, inp.length = n + 1 := ⟨inp.length - 1, by omega⟩
  conv_lhs => unfold cut
  rw [hn, cutWithin, h]
  exact cutWithin_eq_cut (by rw [List.length_drop]; omega)

/-- Neither does an invalid first symbol. -/
theorem cut_of_invalid {st : σ} {inp : List β} (h : d.head st inp = .invalid) :
    d.cut st inp = d.cut st (inp.drop 1) := by
  have hpos := List.length_pos_of_ne_nil (ne_nil_of_head_invalid h)
  obtain ⟨n, hn⟩ : ∃ n, inp.length = n + 1 := ⟨inp.length - 1, by omega⟩
  conv_lhs => unfold cut
  rw [hn, cutWithin, h]
  exact cutWithin_eq_cut (by rw [List.length_drop]; omega)

/-- An incomplete character is cut. -/
theorem cut_of_incomplete {st : σ} {inp : List β} (h : d.head st inp = .incomplete)
    (hne : inp ≠ []) : d.cut st inp = true := by
  obtain ⟨b, rest, rfl⟩ := List.exists_cons_of_ne_nil hne
  unfold cut
  rw [List.length_cons, cutWithin, h]
  rfl

/-- A bounded conversion changes nothing about the end. -/
theorem convert_cut (room : ℕ) (st : σ) (inp more : List β) :
    d.cut st (inp ++ more) =
      d.cut (d.convert room st inp).next (inp.drop (d.convert room st inp).consumed ++ more) := by
  suffices h : ∀ n room st (inp : List β), d.cut st (inp ++ more) =
      d.cut (d.convertWithin n room st inp).next
        (inp.drop (d.convertWithin n room st inp).consumed ++ more) from h _ _ _ _
  intro n
  induction n with
  | zero => exact fun _ _ _ => rfl
  | succ n ih =>
    intro room st inp
    rw [convertWithin]
    by_cases hempty : inp.isEmpty = true
    · rw [if_pos hempty]
      rfl
    rw [if_neg hempty]
    cases hhead : d.head st inp with
    | incomplete => rfl
    | invalid => rfl
    | char len out next =>
      have hlen := d.char_length hhead
      by_cases hroom : out.length ≤ room
      · simp only [if_pos hroom]
        rw [cut_of_char (d.char_append more hhead), List.drop_append_of_le_length hlen.2,
          ih (room - out.length), List.drop_drop]
      · simp only [if_neg hroom]
        rfl

/-- A conversion that stops at an incomplete character has one in front of it. -/
theorem convert_incomplete_ne_nil {room : ℕ} {st : σ} {inp : List β}
    (h : (d.convert room st inp).stop = .incomplete) :
    inp.drop (d.convert room st inp).consumed ≠ [] := by
  suffices hwithin : ∀ n room st (inp : List β), (d.convertWithin n room st inp).stop = .incomplete →
      inp.drop (d.convertWithin n room st inp).consumed ≠ [] from hwithin _ _ _ _ h
  intro n
  induction n with
  | zero =>
    intro room st inp hstop
    rw [convertWithin] at hstop
    dsimp only at hstop
    split_ifs at hstop
  | succ n ih =>
    intro room st inp hstop
    rw [convertWithin] at hstop ⊢
    by_cases hempty : inp.isEmpty = true
    · rw [if_pos hempty] at hstop
      cases hstop
    rw [if_neg hempty] at hstop ⊢
    cases hhead : d.head st inp with
    | incomplete => simpa using hempty
    | invalid =>
      rw [hhead] at hstop
      cases hstop
    | char len out next =>
      rw [hhead] at hstop
      by_cases hroom : out.length ≤ room
      · simp only [if_pos hroom] at hstop ⊢
        rw [← List.drop_drop]
        exact ih _ _ _ hstop
      · simp only [if_neg hroom] at hstop
        cases hstop

/-- A conversion that finds nothing but an incomplete character does nothing. -/
theorem convert_of_incomplete {room : ℕ} {st : σ} {inp : List β} (h : d.head st inp = .incomplete)
    (hne : inp ≠ []) : d.convert room st inp = ⟨st, 0, [], .incomplete⟩ := by
  obtain ⟨b, rest, rfl⟩ := List.exists_cons_of_ne_nil hne
  unfold convert
  rw [List.length_cons, convertWithin, if_neg (by simp), h]

/-- A decoder without shift states. -/
def Stateless (d : Decoder σ β γ) : Prop := ∀ st st', d.head st = d.head st'

/-- Its conversions do not depend on where they start. -/
theorem Stateless.convert_eq (h : d.Stateless) (room : ℕ) (st st' : σ) (inp : List β) :
    (d.convert room st inp).consumed = (d.convert room st' inp).consumed ∧
      (d.convert room st inp).out = (d.convert room st' inp).out ∧
      (d.convert room st inp).stop = (d.convert room st' inp).stop := by
  unfold convert
  generalize inp.length = n
  cases n with
  | zero => exact ⟨rfl, rfl, rfl⟩
  | succ n =>
    rw [convertWithin, convertWithin, h st st']
    by_cases hempty : inp.isEmpty = true
    · rw [if_pos hempty, if_pos hempty]
      exact ⟨rfl, rfl, rfl⟩
    rw [if_neg hempty, if_neg hempty]
    cases d.head st' inp with
    | incomplete => exact ⟨rfl, rfl, rfl⟩
    | invalid => exact ⟨rfl, rfl, rfl⟩
    | char len out next =>
      by_cases hroom : out.length ≤ room
      · simp only [if_pos hroom, and_self]
      · simp only [if_neg hroom, and_self]

/-- Neither does the text of an input. -/
theorem Stateless.decode_eq (h : d.Stateless) (st st' : σ) (inp : List β) :
    d.decode st inp = d.decode st' inp := by
  unfold decode
  generalize inp.length = n
  induction n generalizing inp with
  | zero => rfl
  | succ n ih =>
    rw [decodeWithin, decodeWithin, h st st']
    cases d.head st' inp with
    | char len out next => rfl
    | invalid => exact ih _
    | incomplete => rfl

/-- Nor does its end. -/
theorem Stateless.cut_eq (h : d.Stateless) (st st' : σ) (inp : List β) :
    d.cut st inp = d.cut st' inp := by
  unfold cut
  generalize inp.length = n
  induction n generalizing inp with
  | zero => rfl
  | succ n ih =>
    rw [cutWithin, cutWithin, h st st']
    cases d.head st' inp with
    | char len out next => rfl
    | invalid => exact ih _
    | incomplete => rfl

end Decoder

end Incremental
