import Mathlib.Algebra.Order.Round
import Mathlib.Data.Rat.Floor
import Mathlib.Tactic.Linarith
import Mathlib.Tactic.Positivity
import Mathlib.Tactic.Ring

/-! # Decimals of a fixed scale

`roundAway` rounds to the nearest integer and sends ties away from zero.
`Decimal d` is a number with `d` digits after the point, stored as its count of
units, so a value off the grid cannot be built. The lemmas say how far rounding
moves a number, when it keeps the sign, and how it commutes with adding a
number that is already on the grid. -/
namespace FixedPoint

/-- Nearest integer, ties away from zero. -/
def roundAway (x : ℚ) : ℤ := if 0 ≤ x then ⌊x + 1 / 2⌋ else -⌊-x + 1 / 2⌋

/-- Exactly between two integers. -/
def Tie (x : ℚ) : Prop := Int.fract x = 1 / 2

instance (x : ℚ) : Decidable (Tie x) := inferInstanceAs (Decidable (_ = _))

theorem roundAway_of_nonneg {x : ℚ} (h : 0 ≤ x) : roundAway x = ⌊x + 1 / 2⌋ := if_pos h

theorem roundAway_of_nonpos {x : ℚ} (h : x ≤ 0) : roundAway x = -⌊-x + 1 / 2⌋ := by
  rcases h.lt_or_eq with h | rfl
  · exact if_neg (not_le.mpr h)
  · norm_num [roundAway]

theorem roundAway_neg (x : ℚ) : roundAway (-x) = -roundAway x := by
  rcases le_total 0 x with h | h
  · rw [roundAway_of_nonneg h, roundAway_of_nonpos (neg_nonpos.mpr h), neg_neg]
  · rw [roundAway_of_nonpos h, roundAway_of_nonneg (neg_nonneg.mpr h), neg_neg]

theorem roundAway_intCast (n : ℤ) : roundAway n = n := by
  have half (m : ℤ) : ⌊(m : ℚ) + 1 / 2⌋ = m := by
    rw [Int.floor_eq_iff]; constructor <;> linarith
  rcases le_total 0 (n : ℚ) with h | h
  · rw [roundAway_of_nonneg h, half]
  · have := half (-n)
    rw [Int.cast_neg] at this
    rw [roundAway_of_nonpos h, this, neg_neg]

theorem roundAway_mono {x y : ℚ} (h : x ≤ y) : roundAway x ≤ roundAway y := by
  have nonneg {z : ℚ} (hz : 0 ≤ z) : 0 ≤ roundAway z := by
    rw [roundAway_of_nonneg hz]; exact Int.floor_nonneg.mpr (by linarith)
  rcases le_total 0 x with hx | hx
  · rw [roundAway_of_nonneg hx, roundAway_of_nonneg (hx.trans h)]
    exact Int.floor_le_floor (by linarith)
  rcases le_total 0 y with hy | hy
  · have := nonneg (neg_nonneg.mpr hx)
    rw [roundAway_neg] at this
    exact (neg_nonneg.mp this).trans (nonneg hy)
  · rw [roundAway_of_nonpos hx, roundAway_of_nonpos hy]
    exact neg_le_neg (Int.floor_le_floor (by linarith))

/-- Rounding moves a number by half a unit at most. -/
theorem abs_roundAway_sub (x : ℚ) : |(roundAway x : ℚ) - x| ≤ 1 / 2 := by
  have floor_half (y : ℚ) : |(⌊y + 1 / 2⌋ : ℚ) - y| ≤ 1 / 2 := by
    have := Int.floor_le (y + 1 / 2)
    have := Int.lt_floor_add_one (y + 1 / 2)
    rw [abs_le]; constructor <;> linarith
  rcases le_total 0 x with h | h
  · rw [roundAway_of_nonneg h]; exact floor_half x
  · have := floor_half (-x)
    rw [roundAway_of_nonpos h, abs_sub_comm, Int.cast_neg]
    rw [sub_neg_eq_add] at this ⊢
    rwa [add_comm]

/-- The rounded number is negative only from half a unit below zero on. -/
theorem roundAway_nonneg_iff (x : ℚ) : 0 ≤ roundAway x ↔ -(1 / 2) < x := by
  rcases le_total 0 x with h | h
  · rw [roundAway_of_nonneg h]
    exact iff_of_true (Int.floor_nonneg.mpr (by linarith)) (by linarith)
  · rw [roundAway_of_nonpos h, neg_nonneg, ← Int.lt_add_one_iff, zero_add, Int.floor_lt]
    constructor <;> intro h <;> push_cast at * <;> linarith

theorem floor_add_half (u : ℚ) : ⌊u + 1 / 2⌋ = ⌈u - 1 / 2⌉ ↔ ¬ Tie u := by
  have hu := Int.floor_add_fract u
  have h0 := Int.fract_nonneg u
  have h1 := Int.fract_lt_one u
  have up (h : Int.fract u ≥ 1 / 2) : ⌊u + 1 / 2⌋ = ⌊u⌋ + 1 := by
    rw [Int.floor_eq_iff]; push_cast; constructor <;> linarith
  have down (h : Int.fract u < 1 / 2) : ⌊u + 1 / 2⌋ = ⌊u⌋ := by
    rw [Int.floor_eq_iff]; constructor <;> linarith
  have up' (h : 1 / 2 < Int.fract u) : ⌈u - 1 / 2⌉ = ⌊u⌋ + 1 := by
    rw [Int.ceil_eq_iff]; push_cast; constructor <;> linarith
  have down' (h : Int.fract u ≤ 1 / 2) : ⌈u - 1 / 2⌉ = ⌊u⌋ := by
    rw [Int.ceil_eq_iff]; constructor <;> linarith
  rcases lt_trichotomy (Int.fract u) (1 / 2) with h | h | h
  · rw [down h, down' h.le]; exact iff_of_true rfl h.ne
  · rw [up h.ge, down' h.le]; exact iff_of_false (by omega) (not_not.mpr h)
  · rw [up h.le, up' h]; exact iff_of_true rfl h.ne'

/-- Adding to a number on the grid, when the sum is not negative. -/
theorem roundAway_add {n : ℤ} {u : ℚ} (h : 0 ≤ n + u) : roundAway (n + u) = n + ⌊u + 1 / 2⌋ := by
  rw [roundAway_of_nonneg h, add_assoc, Int.floor_intCast_add]

/-- Adding to a number on the grid, when the sum is not positive. -/
theorem roundAway_add_of_nonpos {n : ℤ} {u : ℚ} (h : n + u ≤ 0) :
    roundAway (n + u) = n + ⌈u - 1 / 2⌉ := by
  have e : -((n : ℚ) + u) + 1 / 2 = ((-n : ℤ) : ℚ) + (-(u - 1 / 2)) := by push_cast; ring
  rw [roundAway_of_nonpos h, e, Int.floor_intCast_add, Int.floor_neg]; ring

theorem roundAway_sub {n : ℤ} {u : ℚ} (h : 0 ≤ n - u) : roundAway (n - u) = n - ⌈u - 1 / 2⌉ := by
  have e : -(n - u : ℚ) = ((-n : ℤ) : ℚ) + u := by push_cast; ring
  have hle : ((-n : ℤ) : ℚ) + u ≤ 0 := by push_cast; linarith
  rw [← neg_neg (n - u : ℚ), roundAway_neg, e, roundAway_add_of_nonpos hle]; ring

/-- Adding to a number on the grid, when neither the sum nor what is added has
the other sign. -/
theorem roundAway_intCast_add {n : ℤ} {u : ℚ} (h : 0 ≤ u ∧ 0 ≤ n + u ∨ u ≤ 0 ∧ n + u ≤ 0) :
    roundAway (n + u) = n + roundAway u := by
  rcases h with ⟨hu, hs⟩ | ⟨hu, hs⟩
  · rw [roundAway_add hs, roundAway_of_nonneg hu]
  · have e : -u + 1 / 2 = -(u - 1 / 2) := by ring
    rw [roundAway_add_of_nonpos hs, roundAway_of_nonpos hu, e, Int.floor_neg, neg_neg]

/-! ## Decimals -/

/-- A decimal with `d` digits after the point. -/
structure Decimal (d : ℕ) where
  units : ℤ
  deriving DecidableEq

namespace Decimal
variable {d : ℕ}

def toRat (a : Decimal d) : ℚ := a.units / 10 ^ d

/-- The nearest decimal of scale `d`, ties away from zero. -/
def ofRat (d : ℕ) (x : ℚ) : Decimal d := ⟨roundAway (x * 10 ^ d)⟩

instance : Zero (Decimal d) := ⟨⟨0⟩⟩

@[simp] theorem units_zero : (0 : Decimal d).units = 0 := rfl

theorem scale_pos (d : ℕ) : (0 : ℚ) < 10 ^ d := by positivity

theorem toRat_mul_scale (a : Decimal d) : a.toRat * 10 ^ d = a.units := by
  rw [toRat, div_mul_cancel₀ _ (scale_pos d).ne']

theorem toRat_nonneg_iff (a : Decimal d) : 0 ≤ a.toRat ↔ 0 ≤ a.units := by
  rw [toRat, le_div_iff₀ (scale_pos d), zero_mul, Int.cast_nonneg_iff]

/-- Storing a number moves it by half a unit of the last digit at most. -/
theorem abs_ofRat_sub (x : ℚ) : |(ofRat d x).toRat - x| ≤ 1 / 2 / 10 ^ d := by
  have h := abs_roundAway_sub (x * 10 ^ d)
  have e : (ofRat d x).toRat - x = ((roundAway (x * 10 ^ d) : ℚ) - x * 10 ^ d) / 10 ^ d := by
    rw [toRat, ofRat, sub_div, mul_div_cancel_right₀ _ (scale_pos d).ne']
  rw [e, abs_div, abs_of_pos (scale_pos d)]
  exact div_le_div_of_nonneg_right h (scale_pos d).le

theorem ofRat_toRat (a : Decimal d) : ofRat d a.toRat = a := by
  rw [ofRat, toRat_mul_scale, roundAway_intCast]

theorem ofRat_mono {x y : ℚ} (h : x ≤ y) : (ofRat d x).toRat ≤ (ofRat d y).toRat := by
  have hr := roundAway_mono (mul_le_mul_of_nonneg_right h (scale_pos d).le)
  exact div_le_div_of_nonneg_right (Int.cast_le.mpr hr) (scale_pos d).le

/-- Adding what is not negative does not lower a stored number. -/
theorem le_ofRat_add (a : Decimal d) {x : ℚ} (h : 0 ≤ x) : a.toRat ≤ (ofRat d (a.toRat + x)).toRat := by
  have hle : (ofRat d a.toRat).toRat ≤ (ofRat d (a.toRat + x)).toRat :=
    ofRat_mono (le_add_of_nonneg_right h)
  rwa [ofRat_toRat] at hle

/-- A stored number is negative only from half a unit of the last digit below
zero on. -/
theorem ofRat_nonneg_iff (x : ℚ) : 0 ≤ (ofRat d x).toRat ↔ -(1 / 2) < x * 10 ^ d := by
  rw [toRat_nonneg_iff]; exact roundAway_nonneg_iff _

/-- The number has at most `d` digits after the point. -/
def Exact (d : ℕ) (x : ℚ) : Prop := (ofRat d x).toRat = x

instance (x : ℚ) : Decidable (Exact d x) := inferInstanceAs (Decidable (_ = _))

theorem exact_iff {x : ℚ} : Exact d x ↔ ∃ a : Decimal d, a.toRat = x := by
  refine ⟨fun h => ⟨_, h⟩, ?_⟩
  rintro ⟨a, rfl⟩
  exact congrArg toRat (ofRat_toRat a)

/-- Digits added at the end change nothing. -/
theorem exact_add_digits (a : Decimal d) (n : ℕ) : Exact (d + n) a.toRat := by
  refine exact_iff.mpr ⟨⟨a.units * 10 ^ n⟩, ?_⟩
  have hn : (10 : ℚ) ^ n ≠ 0 := (scale_pos n).ne'
  rw [toRat, toRat, pow_add]
  push_cast
  exact mul_div_mul_right _ _ hn

theorem Exact.add {x y : ℚ} (hx : Exact d x) (hy : Exact d y) : Exact d (x + y) := by
  obtain ⟨a, rfl⟩ := exact_iff.mp hx
  obtain ⟨b, rfl⟩ := exact_iff.mp hy
  refine exact_iff.mpr ⟨⟨a.units + b.units⟩, ?_⟩
  simp only [toRat, Int.cast_add, add_div]

theorem Exact.neg {x : ℚ} (hx : Exact d x) : Exact d (-x) := by
  obtain ⟨a, rfl⟩ := exact_iff.mp hx
  refine exact_iff.mpr ⟨⟨-a.units⟩, ?_⟩
  simp only [toRat, Int.cast_neg, neg_div]

/-- Nothing is rounded where an exact number is added to a stored one. -/
theorem ofRat_add {a : Decimal d} {x : ℚ} (h : Exact d x) : (ofRat d (a.toRat + x)).toRat = a.toRat + x :=
  Exact.add (exact_iff.mpr ⟨a, rfl⟩) h

/-- Storing does not round a stored number that is split off, unless a sign changes. -/
theorem toRat_ofRat_add {a : Decimal d} {x : ℚ}
    (h : 0 ≤ x ∧ 0 ≤ a.toRat + x ∨ x ≤ 0 ∧ a.toRat + x ≤ 0) :
    (ofRat d (a.toRat + x)).toRat = a.toRat + (ofRat d x).toRat := by
  have scaled : (a.units : ℚ) + x * 10 ^ d = (a.toRat + x) * 10 ^ d := by
    rw [add_mul, toRat_mul_scale]
  have sign : 0 ≤ x * 10 ^ d ∧ 0 ≤ (a.units : ℚ) + x * 10 ^ d ∨
      x * 10 ^ d ≤ 0 ∧ (a.units : ℚ) + x * 10 ^ d ≤ 0 := by
    rw [scaled]
    rcases h with ⟨hx, hs⟩ | ⟨hx, hs⟩
    · exact .inl ⟨mul_nonneg hx (scale_pos d).le, mul_nonneg hs (scale_pos d).le⟩
    · exact .inr ⟨mul_nonpos_of_nonpos_of_nonneg hx (scale_pos d).le,
        mul_nonpos_of_nonpos_of_nonneg hs (scale_pos d).le⟩
  simp only [ofRat, toRat, ← add_div]
  rw [← Int.cast_add, ← roundAway_intCast_add sign, scaled, toRat]

theorem toRat_injective : Function.Injective (toRat : Decimal d → ℚ) := by
  intro a b h
  rw [← ofRat_toRat a, h, ofRat_toRat]

/-- A debit of `x` that leaves a stored balance not negative. -/
theorem units_sub {a : Decimal d} {x : ℚ} (h : x ≤ a.toRat) :
    (ofRat d (a.toRat - x)).units = a.units - ⌈x * 10 ^ d - 1 / 2⌉ := by
  have hle : (0 : ℚ) ≤ a.units - x * 10 ^ d := by
    rw [← toRat_mul_scale]; nlinarith [scale_pos d]
  rw [ofRat, sub_mul, toRat_mul_scale, roundAway_sub hle]

/-- A credit of `x` that leaves a stored balance not negative. -/
theorem units_add {a : Decimal d} {x : ℚ} (h : 0 ≤ a.toRat + x) :
    (ofRat d (a.toRat + x)).units = a.units + ⌊x * 10 ^ d + 1 / 2⌋ := by
  have hle : (0 : ℚ) ≤ a.units + x * 10 ^ d := by
    rw [← toRat_mul_scale]; nlinarith [scale_pos d]
  rw [ofRat, add_mul, toRat_mul_scale, roundAway_add hle]

/-- A credit of `x` to a balance that stays below zero. -/
theorem units_add_of_nonpos {a : Decimal d} {x : ℚ} (h : a.toRat + x ≤ 0) :
    (ofRat d (a.toRat + x)).units = a.units + ⌈x * 10 ^ d - 1 / 2⌉ := by
  have hle : a.units + x * 10 ^ d ≤ (0 : ℚ) := by
    rw [← toRat_mul_scale]; nlinarith [scale_pos d]
  rw [ofRat, add_mul, toRat_mul_scale, roundAway_add_of_nonpos hle]

end Decimal
end FixedPoint
