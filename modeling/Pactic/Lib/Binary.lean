import Mathlib.Algebra.Order.Field.Power
import Mathlib.Algebra.Order.Round
import Mathlib.Data.Int.Log
import Mathlib.Data.Rat.Floor
import Mathlib.Tactic.Linarith
import Mathlib.Tactic.Positivity
import Mathlib.Tactic.Ring

/-! # Binary floating point

`roundEven` rounds to the nearest integer and sends ties to the even one.
`round d` rounds to the nearest number of one binary digit before the point and
`d` after it, times a power of two; the exponent is not bounded. The lemmas say
that rounding keeps order and sign and how far it moves a number. -/
namespace FloatingPoint

/-- Nearest integer, ties to even. -/
def roundEven (x : ℚ) : ℤ :=
  if Int.fract x < 1 / 2 ∨ Int.fract x = 1 / 2 ∧ ⌊x⌋ % 2 = 0 then ⌊x⌋ else ⌊x⌋ + 1

/-- `n` is a nearest integer to `x`, and even if there are two. -/
def Nearest (n : ℤ) (x : ℚ) : Prop := |(n : ℚ) - x| ≤ 1 / 2 ∧ (|(n : ℚ) - x| = 1 / 2 → n % 2 = 0)

theorem nearest_roundEven (x : ℚ) : Nearest (roundEven x) x := by
  have hx := Int.floor_add_fract x
  have h0 := Int.fract_nonneg x
  have h1 := Int.fract_lt_one x
  simp only [Nearest, roundEven]
  split
  · next down =>
    have distance : |(⌊x⌋ : ℚ) - x| = Int.fract x := by
      rw [abs_sub_comm, Int.self_sub_floor, abs_of_nonneg h0]
    rw [distance]
    rcases down with below | ⟨tie, even⟩
    · exact ⟨below.le, fun tie => absurd tie below.ne⟩
    · exact ⟨tie.le, fun _ => even⟩
  · next up =>
    rw [not_or, not_lt, not_and] at up
    have distance : |((⌊x⌋ + 1 : ℤ) : ℚ) - x| = 1 - Int.fract x := by
      rw [abs_of_nonneg] <;> push_cast <;> linarith
    rw [distance]
    refine ⟨by linarith, fun tie => ?_⟩
    have := up.2 (by linarith)
    omega

theorem Nearest.unique {m n : ℤ} {x : ℚ} (hm : Nearest m x) (hn : Nearest n x) : m = n := by
  have bound := hm.1
  have bound' := hn.1
  rw [abs_le] at bound bound'
  have above : m ≤ n + 1 := by exact_mod_cast (by linarith : (m : ℚ) ≤ n + 1)
  have below : n ≤ m + 1 := by exact_mod_cast (by linarith : (n : ℚ) ≤ m + 1)
  rcases (by omega : m = n ∨ m = n + 1 ∨ n = m + 1) with h | h | h
  · exact h
  · have even := hm.2 (by rw [h] at bound ⊢; rw [abs_of_nonneg] <;> push_cast at * <;> linarith)
    have even' := hn.2 (by
      rw [h] at bound; rw [abs_of_nonpos] <;> push_cast at * <;> linarith)
    omega
  · have even := hn.2 (by rw [h] at bound' ⊢; rw [abs_of_nonneg] <;> push_cast at * <;> linarith)
    have even' := hm.2 (by
      rw [h] at bound'; rw [abs_of_nonpos] <;> push_cast at * <;> linarith)
    omega

theorem roundEven_neg (x : ℚ) : roundEven (-x) = -roundEven x := by
  have flip : |((-roundEven x : ℤ) : ℚ) - -x| = |(roundEven x : ℚ) - x| := by
    rw [Int.cast_neg, neg_sub_neg, abs_sub_comm]
  have nearest : Nearest (-roundEven x) (-x) := by
    rw [Nearest, flip]
    refine ⟨(nearest_roundEven x).1, fun tie => ?_⟩
    have := (nearest_roundEven x).2 tie
    omega
  exact (nearest_roundEven (-x)).unique nearest

theorem roundEven_intCast (n : ℤ) : roundEven n = n := by
  simp [roundEven]

theorem roundEven_mono {x y : ℚ} (h : x ≤ y) : roundEven x ≤ roundEven y := by
  by_contra less
  have gap : (roundEven y : ℚ) + 1 ≤ roundEven x := by exact_mod_cast (by omega)
  have hx := abs_le.mp (nearest_roundEven x).1
  have hy := abs_le.mp (nearest_roundEven y).1
  have same : x = y := by linarith
  rw [same] at less
  exact less le_rfl

/-! ## Numbers of `d` binary digits -/

section
variable (d : ℕ)

/-- The place of the last binary digit of the numbers next to `x`. -/
def lastPlace (x : ℚ) : ℤ := Int.log 2 |x| - d

/-- The nearest number with `d` binary digits after the point, up to a power of two. -/
def round (x : ℚ) : ℚ := roundEven (x / 2 ^ lastPlace d x) * 2 ^ lastPlace d x

theorem place_pos (e : ℤ) : (0 : ℚ) < 2 ^ e := by positivity

@[simp] theorem round_zero : round d 0 = 0 := by
  have : roundEven 0 = 0 := roundEven_intCast 0
  simp [round, this]

@[simp] theorem round_neg (x : ℚ) : round d (-x) = -round d x := by
  rw [round, round, lastPlace, abs_neg, ← lastPlace, neg_div, roundEven_neg, Int.cast_neg, neg_mul]

/-- Rounding moves a number by half a unit of its last place at most. -/
theorem abs_round_sub (x : ℚ) : |round d x - x| ≤ 2 ^ lastPlace d x / 2 := by
  have hp := place_pos (lastPlace d x)
  have h := mul_le_mul_of_nonneg_right (nearest_roundEven (x / 2 ^ lastPlace d x)).1 hp.le
  have scaled : round d x - x =
      ((roundEven (x / 2 ^ lastPlace d x) : ℚ) - x / 2 ^ lastPlace d x) * 2 ^ lastPlace d x := by
    rw [round, sub_mul, div_mul_cancel₀ _ hp.ne']
  rw [scaled, abs_mul, abs_of_pos hp]
  linarith

/-- The larger a number, the further it may move. -/
theorem abs_round_sub_lt {x : ℚ} {k : ℤ} (h : |x| < 2 ^ k) : |round d x - x| ≤ 2 ^ (k - 1 - d) / 2 := by
  rcases eq_or_ne x 0 with rfl | hx
  · rw [round_zero, sub_zero, abs_zero]; positivity
  have small : Int.log 2 |x| < k := (Int.lt_zpow_iff_log_lt one_lt_two (abs_pos.mpr hx)).mp h
  have place : (2 : ℚ) ^ lastPlace d x ≤ 2 ^ (k - 1 - d) :=
    zpow_le_zpow_right₀ one_le_two (by rw [lastPlace]; omega)
  have := abs_round_sub d x
  linarith

/-- Rounding moves a number by a small part of it. -/
theorem abs_round_sub_le (x : ℚ) : |round d x - x| ≤ |x| / 2 ^ (d + 1) := by
  rcases eq_or_ne x 0 with rfl | hx
  · rw [round_zero, sub_zero, abs_zero, zero_div]
  have log : (2 : ℚ) ^ Int.log 2 |x| ≤ |x| := by
    exact_mod_cast Int.zpow_log_le_self one_lt_two (abs_pos.mpr hx)
  have place : (2 : ℚ) ^ lastPlace d x = 2 ^ Int.log 2 |x| / 2 ^ d := by
    rw [lastPlace, zpow_sub₀ two_ne_zero, zpow_natCast]
  calc |round d x - x| ≤ 2 ^ Int.log 2 |x| / 2 ^ d / 2 := place ▸ abs_round_sub d x
    _ ≤ |x| / 2 ^ d / 2 := by gcongr
    _ = |x| / 2 ^ (d + 1) := by rw [pow_succ, div_div]

/-- A number lies between the powers of two around it, and so does its rounding. -/
theorem round_mem {x : ℚ} (hx : 0 < x) :
    (2 : ℚ) ^ Int.log 2 x ≤ round d x ∧ round d x ≤ 2 ^ (Int.log 2 x + 1) := by
  have hp := place_pos (lastPlace d x)
  have power (n : ℕ) : (((2 : ℤ) ^ n : ℤ) : ℚ) * 2 ^ lastPlace d x = 2 ^ (lastPlace d x + n) := by
    rw [zpow_add₀ two_ne_zero, zpow_natCast, mul_comm]; push_cast; rfl
  have low : (((2 : ℤ) ^ d : ℤ) : ℚ) * 2 ^ lastPlace d x = 2 ^ Int.log 2 x := by
    rw [power, lastPlace, abs_of_pos hx, sub_add_cancel]
  have high : (((2 : ℤ) ^ (d + 1) : ℤ) : ℚ) * 2 ^ lastPlace d x = 2 ^ (Int.log 2 x + 1) := by
    rw [power, lastPlace, abs_of_pos hx]; congr 1; push_cast; ring
  have above : (((2 : ℤ) ^ d : ℤ) : ℚ) ≤ x / 2 ^ lastPlace d x := by
    rw [le_div_iff₀ hp, low]; exact_mod_cast Int.zpow_log_le_self one_lt_two hx
  have below : x / 2 ^ lastPlace d x ≤ (((2 : ℤ) ^ (d + 1) : ℤ) : ℚ) := by
    rw [div_le_iff₀ hp, high]; exact_mod_cast (Int.lt_zpow_succ_log_self one_lt_two x).le
  rw [← low, ← high, round]
  have hlow := roundEven_mono above
  have hhigh := roundEven_mono below
  rw [roundEven_intCast] at hlow hhigh
  constructor <;> gcongr

theorem round_mono {x y : ℚ} (h : x ≤ y) : round d x ≤ round d y := by
  have positive {x y : ℚ} (hx : 0 < x) (h : x ≤ y) : round d x ≤ round d y := by
    rcases (Int.log_mono_right hx h : Int.log 2 x ≤ Int.log 2 y).lt_or_eq with lower | same
    · calc round d x ≤ 2 ^ (Int.log 2 x + 1) := (round_mem d hx).2
        _ ≤ 2 ^ Int.log 2 y := zpow_le_zpow_right₀ one_le_two lower
        _ ≤ round d y := (round_mem d (hx.trans_le h)).1
    · have place : lastPlace d x = lastPlace d y := by
        rw [lastPlace, lastPlace, abs_of_pos hx, abs_of_pos (hx.trans_le h), same]
      have hp := place_pos (lastPlace d y)
      rw [round, round, place]
      gcongr
      exact roundEven_mono (by gcongr)
  have nonneg {x : ℚ} (hx : 0 < x) : 0 ≤ round d x := (place_pos _).le.trans (round_mem d hx).1
  rcases lt_trichotomy x 0 with hx | rfl | hx
  · rcases lt_trichotomy y 0 with hy | rfl | hy
    · have := positive (neg_pos.mpr hy) (neg_le_neg h)
      rwa [round_neg, round_neg, neg_le_neg_iff] at this
    · have := nonneg (neg_pos.mpr hx)
      rw [round_neg] at this
      rw [round_zero]; linarith
    · have := nonneg (neg_pos.mpr hx)
      rw [round_neg] at this
      exact le_trans (by linarith) (nonneg hy)
  · rcases h.eq_or_lt with rfl | hy
    · exact le_rfl
    · rw [round_zero]; exact nonneg hy
  · exact positive hx h

theorem round_nonneg {x : ℚ} (h : 0 ≤ x) : 0 ≤ round d x := round_zero d ▸ round_mono d h

end
end FloatingPoint
