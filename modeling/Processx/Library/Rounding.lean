import Mathlib.Algebra.Order.Field.Power
import Mathlib.Algebra.Order.Floor.Ring
import Mathlib.Data.Int.Log
import Mathlib.Data.Rat.Floor
import Mathlib.Tactic.Linarith
import Mathlib.Tactic.Positivity

/-!
# Rounding to a number of binary digits

The number with `p` binary digits that is nearest to a rational number, of two that are as near the
one with an even last digit. The exponent has no bounds. An integer that needs fewer than `p` digits
is passed by the rounding exactly from the middle between it and the number below it on.
-/

namespace Rounding

/-- The nearest integer, of two that are as near the even one. -/
def roundEven (x : ℚ) : ℤ :=
  if x - ⌊x⌋ < 1 / 2 then ⌊x⌋
  else if 1 / 2 < x - ⌊x⌋ then ⌊x⌋ + 1
  else if Even ⌊x⌋ then ⌊x⌋
  else ⌊x⌋ + 1

/-- The distance of the numbers with `p` binary digits around `x`. -/
def spacing (p : ℕ) (x : ℚ) : ℚ := 2 ^ (Int.log 2 |x| + 1 - p)

/-- The nearest number with `p` binary digits. -/
def nearest (p : ℕ) (x : ℚ) : ℚ := roundEven (x / spacing p x) * spacing p x

/-- The distance of the numbers with `p` binary digits just below `x`. -/
def spacingBelow (p : ℕ) (x : ℚ) : ℚ := 2 ^ (Int.clog 2 x - p)

/-- The middle between `x` and the number with `p` binary digits below it. -/
def middleBelow (p : ℕ) (x : ℚ) : ℚ := x - spacingBelow p x / 2

/-- The distance of the numbers is positive. -/
theorem spacing_pos (p : ℕ) (x : ℚ) : 0 < spacing p x := by
  unfold spacing
  positivity

/-- So is the one below. -/
theorem spacingBelow_pos (p : ℕ) (x : ℚ) : 0 < spacingBelow p x := by
  unfold spacingBelow
  positivity

/-- Rounding does not go above an integer. -/
theorem roundEven_le {x : ℚ} {m : ℤ} (h : x ≤ m) : roundEven x ≤ m := by
  have hle := Int.floor_le x
  have hfloor : ⌊x⌋ ≤ m := by exact_mod_cast hle.trans h
  have hlast : ¬ x - ⌊x⌋ < 1 / 2 → ⌊x⌋ + 1 ≤ m := by
    intro hfar
    refine Int.add_one_le_iff.mpr (lt_of_le_of_ne hfloor ?_)
    intro heq
    rw [heq] at hfar
    linarith
  unfold roundEven
  split_ifs with hlow
  · exact hfloor
  · exact hlast hlow
  · exact hfloor
  · exact hlast hlow

/-- Rounding does not go below an integer. -/
theorem le_roundEven {x : ℚ} {m : ℤ} (h : m ≤ x) : m ≤ roundEven x := by
  have hfloor : m ≤ ⌊x⌋ := Int.le_floor.mpr h
  unfold roundEven
  split_ifs
  all_goals omega

/-- An even integer takes all the numbers up to the two middles. -/
theorem le_roundEven_iff {x : ℚ} {m : ℤ} (hm : Even m) : m ≤ roundEven x ↔ m - 1 / 2 ≤ x := by
  have hle := Int.floor_le x
  have hlt := Int.lt_floor_add_one x
  by_cases hmx : m ≤ ⌊x⌋
  · have hmx' : (m : ℚ) ≤ ⌊x⌋ := by exact_mod_cast hmx
    refine iff_of_true ?_ (by linarith)
    exact le_roundEven (hmx'.trans hle)
  by_cases hnext : m = ⌊x⌋ + 1
  · have hodd : ¬ Even ⌊x⌋ := by
      rw [hnext] at hm
      exact fun heven => Int.even_add_one.mp hm heven
    have hcast : (m : ℚ) = ⌊x⌋ + 1 := by exact_mod_cast hnext
    unfold roundEven
    rw [hcast, hnext, if_neg hodd]
    split_ifs with hlow hhigh
    · exact iff_of_false (by omega) (by linarith)
    · exact iff_of_true le_rfl (by linarith)
    · exact iff_of_true le_rfl (by linarith)
  · have hfar : (⌊x⌋ : ℚ) + 2 ≤ m := by
      have : ⌊x⌋ + 2 ≤ m := by omega
      exact_mod_cast this
    refine iff_of_false ?_ (by linarith)
    have hup : roundEven x ≤ ⌊x⌋ + 1 := roundEven_le (by push_cast; exact hlt.le)
    omega

/-- Rounding is the same on both sides of zero. -/
theorem roundEven_neg (x : ℚ) : roundEven (-x) = -roundEven x := by
  have hle := Int.floor_le x
  have hlt := Int.lt_floor_add_one x
  by_cases hint : (⌊x⌋ : ℚ) = x
  · have hneg : ⌊-x⌋ = -⌊x⌋ := by
      rw [Int.floor_eq_iff]
      push_cast
      constructor <;> linarith
    unfold roundEven
    rw [hneg, if_pos (by push_cast; linarith), if_pos (by linarith)]
  · have hpos : (⌊x⌋ : ℚ) < x := lt_of_le_of_ne hle hint
    have hneg : ⌊-x⌋ = -⌊x⌋ - 1 := by
      rw [Int.floor_eq_iff]
      push_cast
      constructor <;> linarith
    have hparity : Even (-⌊x⌋ - 1) ↔ ¬ Even ⌊x⌋ := by
      rw [Int.even_sub_one, even_neg]
    unfold roundEven
    rw [hneg]
    push_cast
    simp only [hparity]
    split_ifs
    all_goals first
      | omega
      | exfalso; linarith

/-- So is rounding to binary digits. -/
theorem nearest_neg (p : ℕ) (x : ℚ) : nearest p (-x) = -nearest p x := by
  unfold nearest spacing
  rw [abs_neg, neg_div, roundEven_neg]
  push_cast
  rw [neg_mul]

/-- What is not negative stays so. -/
theorem nearest_nonneg (p : ℕ) {x : ℚ} (hx : 0 ≤ x) : 0 ≤ nearest p x := by
  have hround : (0 : ℤ) ≤ roundEven (x / spacing p x) := by
    refine le_roundEven ?_
    push_cast
    exact div_nonneg hx (spacing_pos p x).le
  unfold nearest
  have := spacing_pos p x
  positivity

/-- A number below a power of two is not rounded beyond it. -/
theorem nearest_le_zpow {p : ℕ} {x : ℚ} (hx : 0 < x) :
    nearest p x ≤ 2 ^ (Int.log 2 x + 1) := by
  have hpos := spacing_pos p x
  have hsplit : (2 : ℚ) ^ (Int.log 2 x + 1) = ((2 ^ p : ℕ) : ℤ) * spacing p x := by
    unfold spacing
    rw [abs_of_pos hx]
    push_cast
    rw [← zpow_natCast, ← zpow_add₀ (by norm_num)]
    congr 1
    ring
  unfold nearest
  rw [hsplit]
  refine mul_le_mul_of_nonneg_right ?_ hpos.le
  have hround : roundEven (x / spacing p x) ≤ ((2 ^ p : ℕ) : ℤ) := by
    refine roundEven_le ?_
    rw [div_le_iff₀ hpos, ← hsplit]
    exact (Int.lt_zpow_succ_log_self (by norm_num) x).le
  exact_mod_cast hround

/-- A number above a power of two is not rounded below it. -/
theorem zpow_le_nearest {p : ℕ} (hp : 0 < p) {x : ℚ} (hx : 0 < x) :
    2 ^ Int.log 2 x ≤ nearest p x := by
  have hpos := spacing_pos p x
  have hsplit : (2 : ℚ) ^ Int.log 2 x = ((2 ^ (p - 1) : ℕ) : ℤ) * spacing p x := by
    unfold spacing
    rw [abs_of_pos hx]
    push_cast
    rw [← zpow_natCast, ← zpow_add₀ (by norm_num)]
    congr 1
    push_cast [Nat.cast_sub hp]
    ring
  unfold nearest
  rw [hsplit]
  refine mul_le_mul_of_nonneg_right ?_ hpos.le
  have hround : ((2 ^ (p - 1) : ℕ) : ℤ) ≤ roundEven (x / spacing p x) := by
    refine le_roundEven ?_
    rw [le_div_iff₀ hpos, ← hsplit]
    exact Int.zpow_log_le_self (by norm_num) hx
  exact_mod_cast hround

/-- A number with an even last digit is passed from the middle below it on. -/
theorem le_nearest_iff {p : ℕ} (hp : 0 < p) {g x : ℚ} (hg : 0 < g) {m : ℤ} (hm : Even m)
    (hdigits : g = m * spacingBelow p g) : g ≤ nearest p x ↔ middleBelow p g ≤ x := by
  have hbelow := spacingBelow_pos p g
  have htop : g ≤ 2 ^ Int.clog 2 g := Int.self_le_zpow_clog (by norm_num) g
  have hbottom : 2 ^ (Int.clog 2 g - 1) < g := Int.zpow_pred_clog_lt_self (by norm_num) hg
  -- the middle is not below the power of two below
  have hmiddle : 2 ^ (Int.clog 2 g - 1) < middleBelow p g := by
    have hpower : (2 : ℚ) ^ (Int.clog 2 g - 1) = ((2 ^ (p - 1) : ℕ) : ℤ) * spacingBelow p g := by
      unfold spacingBelow
      push_cast
      rw [← zpow_natCast, ← zpow_add₀ (by norm_num)]
      congr 1
      push_cast [Nat.cast_sub hp]
      ring
    have hlt : ((2 ^ (p - 1) : ℕ) : ℤ) < m := by
      have hmul : (((2 ^ (p - 1) : ℕ) : ℤ) : ℚ) * spacingBelow p g < m * spacingBelow p g := by
        rw [← hpower, ← hdigits]
        exact hbottom
      exact_mod_cast lt_of_mul_lt_mul_right hmul hbelow.le
    have hsucc : (((2 ^ (p - 1) : ℕ) : ℤ) : ℚ) + 1 ≤ m := by exact_mod_cast hlt
    have hstep := mul_le_mul_of_nonneg_right hsucc hbelow.le
    rw [add_mul, one_mul, ← hpower, ← hdigits] at hstep
    unfold middleBelow
    linarith
  rcases le_or_gt x 0 with hx | hx
  · have hrounded : nearest p x ≤ 0 := by
      have h := nearest_nonneg p (neg_nonneg.mpr hx)
      rw [nearest_neg] at h
      linarith
    have hpower : (0 : ℚ) < 2 ^ (Int.clog 2 g - 1) := by positivity
    exact iff_of_false (by linarith) (by linarith)
  have hlow : 2 ^ Int.log 2 x ≤ x := Int.zpow_log_le_self (by norm_num) hx
  have hhigh : x < 2 ^ (Int.log 2 x + 1) := Int.lt_zpow_succ_log_self (by norm_num) x
  -- the cases are: `x` has a smaller exponent than what is below `g`, the same one, a greater one
  rcases lt_trichotomy (Int.log 2 x) (Int.clog 2 g - 1) with hless | heq | hmore
  · have hpowers : (2 : ℚ) ^ (Int.log 2 x + 1) ≤ 2 ^ (Int.clog 2 g - 1) :=
      zpow_le_zpow_right₀ (by norm_num) (by omega)
    have hrounded := nearest_le_zpow (p := p) hx
    exact iff_of_false (by linarith) (by linarith)
  · have hsame : spacing p x = spacingBelow p g := by
      unfold spacing spacingBelow
      rw [abs_of_pos hx, heq]
      congr 1
      ring
    have hscale : g ≤ nearest p x ↔ m ≤ roundEven (x / spacing p x) := by
      unfold nearest
      rw [hsame]
      nth_rewrite 1 [hdigits]
      rw [mul_le_mul_iff_left₀ hbelow]
      norm_cast
    rw [hscale, le_roundEven_iff hm, le_div_iff₀ (spacing_pos p x), hsame, sub_mul, ← hdigits]
    unfold middleBelow
    rw [one_div, inv_mul_eq_div]
  · have hpowers : (2 : ℚ) ^ Int.clog 2 g ≤ 2 ^ Int.log 2 x :=
      zpow_le_zpow_right₀ (by norm_num) (by omega)
    have hrounded := zpow_le_nearest hp hx
    unfold middleBelow
    exact iff_of_true (by linarith) (by linarith)

/-- An integer with fewer digits is passed from the middle below it on. -/
theorem natCast_le_nearest_iff {p n : ℕ} (hpos : 0 < n) (hfew : n ≤ 2 ^ p) {x : ℚ} :
    (n : ℚ) ≤ nearest (p + 1) x ↔ middleBelow (p + 1) n ≤ x := by
  have hclog : Nat.clog 2 n ≤ p := (Nat.clog_le_iff_le_pow (by norm_num)).mpr hfew
  have heven : Even ((2 * (n * 2 ^ (p - Nat.clog 2 n)) : ℕ) : ℤ) := by
    exact_mod_cast even_two_mul _
  refine le_nearest_iff (Nat.succ_pos p) (by exact_mod_cast hpos) heven ?_
  unfold spacingBelow
  rw [Int.clog_natCast]
  push_cast
  have hexponent : ((p - Nat.clog 2 n : ℕ) : ℤ) + ((Nat.clog 2 n : ℤ) - (p + 1)) = -1 := by
    omega
  rw [← zpow_natCast, mul_assoc, mul_assoc, ← zpow_add₀ (by norm_num), hexponent]
  norm_num
  ring

/-- From the other side of zero. -/
theorem nearest_le_neg_iff {p n : ℕ} (hpos : 0 < n) (hfew : n ≤ 2 ^ p) {x : ℚ} :
    nearest (p + 1) x ≤ -n ↔ x ≤ -middleBelow (p + 1) n := by
  rw [le_neg, ← nearest_neg, natCast_le_nearest_iff hpos hfew, le_neg]

end Rounding
