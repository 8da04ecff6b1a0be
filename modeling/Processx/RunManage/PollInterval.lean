import Mathlib.Tactic.Linarith
import Mathlib.Tactic.Positivity
import Processx.Library.Rounding
import Processx.RunManage

/-!
# How long `run()` polls

Before each poll `run_manage()` works out how much time is left, from a difference of times that
carries its unit, and makes an integer of the milliseconds. Only with a spinner or without a timeout
it cuts them to 200. Times are doubles: a double is the rational number it stands for, and the
result of each operation is rounded to 53 binary digits.
-/

namespace Processx.PollInterval

/-- The double nearest to a number. -/
def toDouble (x : ℚ) : ℚ := Rounding.nearest 53 x

/-- The units of a `difftime`. -/
inductive Units
  | secs
  | mins
  | hours
  | days
  | weeks
  deriving DecidableEq

/-- The length of a unit in seconds. -/
def Units.length : Units → ℚ
  | .secs => 1
  | .mins => 60
  | .hours => 60 * 60
  | .days => 60 * 60 * 24
  | .weeks => 60 * 60 * 24 * 7

/-- A `difftime`: a number with its unit. -/
structure Difftime where
  number : ℚ
  units : Units

/-- `coerceTimeUnit()` in R: the seconds. -/
def Difftime.toSecs (d : Difftime) : ℚ :=
  match d.units with
  | .secs => d.number
  | _ => toDouble (d.units.length * d.number)

/-- The unit that `difftime()` chooses for some seconds. -/
def autoUnits (z : ℚ) : Units :=
  if |z| < 60 then .secs
  else if |z| < 3600 then .mins
  else if |z| < 86400 then .hours
  else .days

/-- The difference of two times. -/
def difftime (time1 time2 : ℚ) : Difftime :=
  let z := toDouble (time1 - time2)
  match autoUnits z with
  | .secs => ⟨z, .secs⟩
  | units => ⟨toDouble (z / units.length), units⟩

/-- The difference of two differences: in their unit if they have the same one, else in seconds. -/
def Difftime.sub (e1 e2 : Difftime) : Difftime :=
  if e2.units = e1.units then ⟨toDouble (e1.number - e2.number), e1.units⟩
  else ⟨toDouble (e1.toSecs - e2.toSecs), .secs⟩

/-- `as.integer()`: towards zero, and missing, with a warning, if it does not fit into 32 bits. -/
def asInteger (x : ℚ) : Option ℤ :=
  if x ≥ 2 ^ 31 ∨ x ≤ -2 ^ 31 then none else some (if 0 ≤ x then ⌊x⌋ else ⌈x⌉)

/-- The `timeout` argument of `run()`. A number is one of seconds. -/
inductive Timeout
  | finite (d : Difftime)
  | infinite

/-- `Sys.time() - start_time > timeout` -/
def timedOut (timeout : Timeout) (start now : ℚ) : Bool :=
  match timeout with
  | .finite d => decide ((difftime now start).toSecs > d.toSecs)
  | .infinite => false

/-- `timeout - (Sys.time() - start_time)`, as a number. -/
def left (d : Difftime) (start now : ℚ) : ℚ := (d.sub (difftime now start)).number

/-- `remains`, which is missing if the integer is. -/
def remains (timeout : Timeout) (spinner : Bool) (start now : ℚ) : Option ℤ :=
  match timeout with
  | .finite d =>
    let remains := (asInteger (toDouble (left d start now * 1000))).map (max 0)
    if spinner then remains.map (min · 200) else remains
  | .infinite => some 200

/-- A round: is the process alive, and what `Sys.time()` returns for the check of the timeout and
for the poll. -/
structure Round where
  alive : Bool
  checked : ℚ
  now : ℚ

/-- A poll: what the clock said before it, and how many milliseconds it may take. -/
structure Poll where
  now : ℚ
  ms : Option ℤ
  deriving DecidableEq

/-- The polls of the loop of `run_manage()`. With `options(warn = 2)` the warning of `as.integer()`
throws, and `poll()` does so if the milliseconds are missing. -/
def runManage (throws : Bool) (timeout : Timeout) (spinner : Bool) (start : ℚ) :
    List Round → List Poll
  | [] => []
  | round :: later =>
    if !round.alive then []
    else if timedOut timeout start round.checked then []
    else
      match remains timeout spinner start round.now with
      | none => if throws then [] else [⟨round.now, none⟩]
      | some ms => ⟨round.now, some ms⟩ :: runManage throws timeout spinner start later

/-- What is left of a timeout: nothing is rounded here. -/
def Difftime.leftAt (d : Difftime) (elapsed : ℚ) : ℚ := d.units.length * d.number - elapsed

/-- The timeout has not passed. -/
def Before (timeout : Timeout) (elapsed : ℚ) : Prop :=
  match timeout with
  | .finite d => 0 ≤ d.leftAt elapsed
  | .infinite => True

/-- An integer between 0 and 200, and not more than what is left. -/
def Poll.InTime (timeout : Timeout) (start : ℚ) (p : Poll) : Prop :=
  ∃ ms, p.ms = some ms ∧ 0 ≤ ms ∧ ms ≤ 200 ∧
    match timeout with
    | .finite d => (ms : ℚ) ≤ d.leftAt (p.now - start) * 1000
    | .infinite => True

/-- What `remains` must be below: 201 milliseconds, and with a spinner what 32 bits cannot hold. -/
def bound (spinner : Bool) : ℕ := if spinner then 2 ^ 31 else 201

/-- There is no timeout, or the difference in R, taken for seconds whatever its unit is, fits and is
short enough, and it does not reach a millisecond that is not left. A number is reached from the
middle between it and the double below it on. -/
def Short (timeout : Timeout) (spinner : Bool) (start now : ℚ) : Prop :=
  match timeout with
  | .finite d =>
    -Rounding.middleBelow 53 (2 ^ 31 : ℕ) < left d start now * 1000 ∧
    left d start now * 1000 < Rounding.middleBelow 53 (bound spinner) ∧
    ∀ k : ℕ, 0 < k → k ≤ 200 → Rounding.middleBelow 53 k ≤ left d start now * 1000 →
      (k : ℚ) ≤ d.leftAt (now - start) * 1000
  | .infinite => True

/-- An integer of at most 32 bits is reached from the middle below it on. -/
theorem natCast_le_toDouble_iff {n : ℕ} (hpos : 0 < n) (hfew : n ≤ 2 ^ 31) {x : ℚ} :
    (n : ℚ) ≤ toDouble x ↔ Rounding.middleBelow 53 n ≤ x :=
  Rounding.natCast_le_nearest_iff (p := 52) hpos (hfew.trans (by norm_num))

/-- The middles are in the order of the integers. -/
theorem middleBelow_le {m n : ℕ} (hpos : 0 < m) (hmn : m ≤ n) (hfew : n ≤ 2 ^ 31) :
    Rounding.middleBelow 53 m ≤ Rounding.middleBelow 53 n := by
  rw [← natCast_le_toDouble_iff hpos (hmn.trans hfew)]
  have hn : (n : ℚ) ≤ toDouble (Rounding.middleBelow 53 n) :=
    (natCast_le_toDouble_iff (hpos.trans_le hmn) hfew).mpr le_rfl
  exact le_trans (by exact_mod_cast hmn) hn

/-- The result of `as.integer()` is missing exactly if the number is not between the middles. -/
theorem asInteger_eq_none_iff (x : ℚ) :
    asInteger (toDouble x) = none ↔
      Rounding.middleBelow 53 (2 ^ 31 : ℕ) ≤ x ∨ x ≤ -Rounding.middleBelow 53 (2 ^ 31 : ℕ) := by
  have hhigh : toDouble x ≥ 2 ^ 31 ↔ Rounding.middleBelow 53 (2 ^ 31 : ℕ) ≤ x := by
    rw [← natCast_le_toDouble_iff (by norm_num) le_rfl]
    norm_num
  have hlow : toDouble x ≤ -2 ^ 31 ↔ x ≤ -Rounding.middleBelow 53 (2 ^ 31 : ℕ) := by
    rw [← Rounding.nearest_le_neg_iff (p := 52) (by norm_num) (by norm_num)]
    norm_num [toDouble]
  rw [← hhigh, ← hlow]
  unfold asInteger
  split_ifs with h
  · exact iff_of_true rfl h
  · exact iff_of_false nofun h

/-- A positive integer is below the result of `as.integer()` exactly if it is below the number. -/
theorem le_of_asInteger {x : ℚ} {i : ℤ} (hi : asInteger x = some i) {k : ℕ} (hk : 0 < k) :
    (k : ℤ) ≤ max 0 i ↔ (k : ℚ) ≤ x := by
  have hkpos : (0 : ℚ) < k := by exact_mod_cast hk
  have hmax : (k : ℤ) ≤ max 0 i ↔ (k : ℤ) ≤ i := by omega
  unfold asInteger at hi
  split_ifs at hi with hfar hx
  · obtain rfl := Option.some.inj hi
    rw [hmax, Int.le_floor]
    norm_cast
  · obtain rfl := Option.some.inj hi
    have hceil : ⌈x⌉ ≤ 0 := Int.ceil_le.mpr (by push_cast; linarith)
    exact iff_of_false (by omega) (by linarith)

/-- The milliseconds are missing exactly if the difference does not fit. -/
theorem remains_eq_none_iff (d : Difftime) (spinner : Bool) (start now : ℚ) :
    remains (.finite d) spinner start now = none ↔
      Rounding.middleBelow 53 (2 ^ 31 : ℕ) ≤ left d start now * 1000 ∨
        left d start now * 1000 ≤ -Rounding.middleBelow 53 (2 ^ 31 : ℕ) := by
  rw [← asInteger_eq_none_iff]
  unfold remains
  cases spinner <;> simp

/-- The milliseconds are an integer that is not negative. With a spinner they are at most 200. -/
theorem remains_bounds {d : Difftime} {spinner : Bool} {start now : ℚ} {ms : ℤ}
    (hms : remains (.finite d) spinner start now = some ms) :
    0 ≤ ms ∧ (spinner = true → ms ≤ 200) := by
  unfold remains at hms
  cases spinner with
  | true =>
    obtain ⟨i, hi, rfl⟩ := Option.map_eq_some_iff.mp hms
    obtain ⟨j, _, rfl⟩ := Option.map_eq_some_iff.mp hi
    exact ⟨by omega, fun _ => min_le_right _ _⟩
  | false =>
    obtain ⟨i, _, rfl⟩ := Option.map_eq_some_iff.mp hms
    exact ⟨le_max_left _ _, nofun⟩

/-- A millisecond is among them exactly if the difference reaches it: with a spinner one of the
first 200. -/
theorem le_remains_iff {d : Difftime} {spinner : Bool} {start now : ℚ} {ms : ℤ}
    (hms : remains (.finite d) spinner start now = some ms) {k : ℕ} (hpos : 0 < k)
    (hfew : k ≤ 2 ^ 31) (hspin : spinner = true → k ≤ 200) :
    (k : ℤ) ≤ ms ↔ Rounding.middleBelow 53 k ≤ left d start now * 1000 := by
  rw [← natCast_le_toDouble_iff hpos hfew]
  unfold remains at hms
  cases spinner with
  | true =>
    obtain ⟨i, hi, rfl⟩ := Option.map_eq_some_iff.mp hms
    obtain ⟨j, hj, rfl⟩ := Option.map_eq_some_iff.mp hi
    rw [← le_of_asInteger hj hpos]
    have hk := hspin rfl
    omega
  | false =>
    obtain ⟨i, hi, rfl⟩ := Option.map_eq_some_iff.mp hms
    exact le_of_asInteger hi hpos

/-- The milliseconds are at most 200 exactly if the difference does not reach the bound. -/
theorem remains_le_iff {d : Difftime} {spinner : Bool} {start now : ℚ} {ms : ℤ}
    (hms : remains (.finite d) spinner start now = some ms) :
    ms ≤ 200 ↔ left d start now * 1000 < Rounding.middleBelow 53 (bound spinner) := by
  cases spinner with
  | true =>
    have hfits := (remains_eq_none_iff d true start now).not.mp (by simp [hms])
    exact iff_of_true ((remains_bounds hms).2 rfl) (not_le.mp (not_or.mp hfits).1)
  | false =>
    have hreach := le_remains_iff hms (k := 201) (by norm_num) (by norm_num) nofun
    rw [← not_le, bound, if_neg (by simp), ← hreach]
    omega

/-- An integer that is not negative is not above a number exactly if no positive one below it is. -/
theorem le_iff_of_nonneg {m : ℤ} (hm : 0 ≤ m) {y : ℚ} (hy : 0 ≤ y) :
    (m : ℚ) ≤ y ↔ ∀ k : ℕ, 0 < k → (k : ℤ) ≤ m → (k : ℚ) ≤ y := by
  lift m to ℕ using hm
  constructor
  · intro hmy k _ hk
    have hkm : (k : ℚ) ≤ m := by exact_mod_cast hk
    have hmy' : (m : ℚ) ≤ y := by exact_mod_cast hmy
    exact hkm.trans hmy'
  · intro h
    rcases Nat.eq_zero_or_pos m with rfl | hpos
    · simpa using hy
    · exact_mod_cast h m hpos le_rfl

/-- A poll is in time exactly if what is left is short enough. -/
theorem inTime_iff {timeout : Timeout} (spinner : Bool) (start now : ℚ)
    (hbefore : Before timeout (now - start)) :
    Poll.InTime timeout start ⟨now, remains timeout spinner start now⟩ ↔
      Short timeout spinner start now := by
  cases timeout with
  | infinite => exact iff_of_true ⟨200, rfl, by norm_num, by norm_num, trivial⟩ trivial
  | finite d =>
    have hnone := remains_eq_none_iff d spinner start now
    have hy : 0 ≤ d.leftAt (now - start) * 1000 := mul_nonneg hbefore (by norm_num)
    unfold Poll.InTime Short
    dsimp only
    cases hms : remains (.finite d) spinner start now with
    | none =>
      refine iff_of_false (fun ⟨_, h, _⟩ => by cases h) ?_
      rintro ⟨hlow, hhigh, _⟩
      have hbound : Rounding.middleBelow 53 (bound spinner) ≤
          Rounding.middleBelow 53 (2 ^ 31 : ℕ) :=
        middleBelow_le (by cases spinner <;> decide) (by cases spinner <;> decide) le_rfl
      rcases hnone.mp hms with h | h <;> linarith
    | some ms =>
      obtain ⟨hms0, hspin⟩ := remains_bounds hms
      have hlow : -Rounding.middleBelow 53 (2 ^ 31 : ℕ) < left d start now * 1000 := by
        by_contra h
        have := hnone.mpr (Or.inr (not_lt.mp h))
        rw [hms] at this
        cases this
      -- the milliseconds that are asked for are the ones that the difference reaches
      have hreach : ms ≤ 200 → ((ms : ℚ) ≤ d.leftAt (now - start) * 1000 ↔
          ∀ k : ℕ, 0 < k → k ≤ 200 → Rounding.middleBelow 53 k ≤ left d start now * 1000 →
            (k : ℚ) ≤ d.leftAt (now - start) * 1000) := by
        intro hmax
        rw [le_iff_of_nonneg hms0 hy]
        refine forall₂_congr fun k hk => ?_
        constructor
        · intro h hk200 hmiddle
          exact h ((le_remains_iff hms hk (by omega) (fun _ => hk200)).mpr hmiddle)
        · intro h hkms
          have hk200 : k ≤ 200 := by omega
          exact h hk200 ((le_remains_iff hms hk (by omega) (fun _ => hk200)).mp hkms)
      rw [← remains_le_iff hms]
      constructor
      · rintro ⟨_, ⟨⟩, _, hmax, hle⟩
        exact ⟨hlow, hmax, (hreach hmax).mp hle⟩
      · rintro ⟨_, hmax, hle⟩
        exact ⟨ms, rfl, hms0, hmax, (hreach hmax).mpr hle⟩

/-- Every poll is one of a reading of the clock. -/
theorem of_mem_runManage {throws : Bool} {timeout : Timeout} {spinner : Bool} {start : ℚ}
    {rounds : List Round} {p : Poll} (hp : p ∈ runManage throws timeout spinner start rounds) :
    p.ms = remains timeout spinner start p.now := by
  induction rounds with
  | nil => cases hp
  | cons round later ih =>
    unfold runManage at hp
    cases hms : remains timeout spinner start round.now with
    | none =>
      rw [hms] at hp
      dsimp only at hp
      split_ifs at hp
      · cases hp
      · cases hp
      · cases hp
      · rw [List.mem_singleton.mp hp, hms]
    | some ms =>
      rw [hms] at hp
      dsimp only at hp
      split_ifs at hp
      · cases hp
      · cases hp
      · rcases List.mem_cons.mp hp with rfl | hp
        · exact hms.symm
        · exact ih hp

/-- **The poll interval.** All the polls of a run, before the timeout, are in time exactly if what
is left at each of them is short enough. -/
theorem pollInterval_iff (throws : Bool) (timeout : Timeout) (spinner : Bool) (start : ℚ)
    (rounds : List Round) :
    (∀ p ∈ runManage throws timeout spinner start rounds, Before timeout (p.now - start) →
        p.InTime timeout start) ↔
      ∀ p ∈ runManage throws timeout spinner start rounds, Before timeout (p.now - start) →
        Short timeout spinner start p.now := by
  refine forall₂_congr fun p hp => imp_congr_right fun hbefore => ?_
  rw [← inTime_iff spinner start p.now hbefore, ← of_mem_runManage hp]

/-- Ten seconds are left, and the poll takes all of them. Thirty days are left, and there is no
integer. -/
theorem pollInterval_exceeded :
    (runManage false (.finite ⟨10, .secs⟩) false 0 [⟨true, 0, 0⟩] = [⟨0, some 10000⟩] ∧
      ¬ Poll.InTime (.finite ⟨10, .secs⟩) 0 ⟨0, some 10000⟩) ∧
    runManage false (.finite ⟨30, .days⟩) true 0 [⟨true, 0, 0⟩] = [⟨0, none⟩] ∧
      ¬ Poll.InTime (.finite ⟨30, .days⟩) 0 ⟨0, none⟩ := by
  refine ⟨⟨by decide +kernel, ?_⟩, by decide +kernel, ?_⟩
  · rintro ⟨ms, ⟨⟩, _, hle, _⟩
    norm_num at hle
  · rintro ⟨ms, h, _⟩
    cases h

end Processx.PollInterval
