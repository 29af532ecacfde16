import Pactic.Book.Spec
import Mathlib.Tactic.NormNum

/-! # Deposits and balances on doubles

On doubles the fee may be a cent off and the net amount off its last digit.
Still neither has the sign that the amount has not, and the net amount of what
is taken out is no more than that. A balance is read as a number that may be
above it, by too little to matter if the balance is below 2³⁹. -/
namespace Pactic.Doubles
open FixedPoint FloatingPoint

attribute [local instance] Arithmetic.doubles

/-- The rate of the fee as a number. -/
def rate : ℚ := FloatingPoint.round 52 (5 / 1000)

theorem rate_mem : 0 ≤ rate ∧ rate ≤ 51 / 10000 := by decide +kernel

theorem round_near {x : ℚ} (h : 0 ≤ x) : |FloatingPoint.round 52 x - x| ≤ 1 / 1000 * x := by
  have moved := abs_round_sub_le 52 x
  rw [abs_of_nonneg h] at moved
  have small : x / 2 ^ (52 + 1) ≤ 1 / 1000 * x := by norm_num; linarith
  exact moved.trans small

theorem round_le {x : ℚ} (h : 0 ≤ x) : FloatingPoint.round 52 x ≤ 1001 / 1000 * x := by
  have := (abs_le.mp (round_near h)).2
  linarith

theorem le_round {x : ℚ} (h : 0 ≤ x) : 999 / 1000 * x ≤ FloatingPoint.round 52 x := by
  have := (abs_le.mp (round_near h)).1
  linarith

theorem fee_neg (a : ℚ) : fee (-a) = -fee a := by
  have scaled : -times a rate * 10 ^ 2 = -(times a rate * 10 ^ 2) := neg_mul ..
  have cents : (toFixed 2 (-times a rate)).toRat = -(toFixed 2 (times a rate)).toRat := by
    rw [toFixed, toFixed, Decimal.ofRat, Decimal.ofRat, scaled, roundAway_neg, Decimal.toRat,
      Decimal.toRat, Int.cast_neg, neg_div]
  calc fee (-a) = toNumber (toFixed 2 (times (-a) rate)) := rfl
    _ = toNumber (toFixed 2 (-times a rate)) := by
      rw [times, neg_mul, show Arithmetic.round (-(a * rate)) = -times a rate from round_neg ..]
    _ = -fee a := by
      rw [toNumber, cents]; exact round_neg ..

theorem netAmount_neg (a : ℚ) : netAmount (-a) = -netAmount a := by
  rw [netAmount, fee_neg, minus, show -a - -fee a = -(a - fee a) by ring]
  exact round_neg ..

section
variable {a : ℚ}

theorem times_rate_nonneg (h : 0 ≤ a) : 0 ≤ times a rate :=
  round_nonneg 52 (mul_nonneg h rate_mem.1)

theorem times_rate_le (h : 0 ≤ a) : times a rate ≤ 52 / 10000 * a := by
  have exact : a * rate ≤ 51 / 10000 * a := by nlinarith [rate_mem.2]
  have rounded : times a rate ≤ 1001 / 1000 * (a * rate) := round_le (mul_nonneg h rate_mem.1)
  linarith

theorem cents_nonneg (h : 0 ≤ a) : 0 ≤ (toFixed 2 (times a rate)).toRat := by
  have := times_rate_nonneg h
  exact (Decimal.ofRat_nonneg_iff _).mpr (by linarith)

theorem fee_nonneg (h : 0 ≤ a) : 0 ≤ fee a := round_nonneg 52 (cents_nonneg h)

/-- The fee is not much more than half a percent. -/
theorem fee_le (h : 0 ≤ a) : fee a ≤ 53 / 10000 * a + 51 / 10000 := by
  have product := times_rate_le h
  have cents : (toFixed 2 (times a rate)).toRat - times a rate ≤ 1 / 2 / 10 ^ 2 :=
    (abs_le.mp (Decimal.abs_ofRat_sub _)).2
  have number : fee a ≤ 1001 / 1000 * (toFixed 2 (times a rate)).toRat := round_le (cents_nonneg h)
  linarith

/-- What is next to nothing is free of charge. -/
theorem fee_of_small (h : 0 ≤ a) (small : a ≤ 9 / 10) : fee a = 0 := by
  have low := times_rate_nonneg h
  have high := times_rate_le h
  have none : roundAway (times a rate * 10 ^ 2) = 0 := by
    rw [roundAway_of_nonneg (by positivity), Int.floor_eq_iff]
    norm_num
    constructor <;> linarith
  have cents : toFixed 2 (times a rate) = 0 := by rw [toFixed, Decimal.ofRat, none]; rfl
  show toNumber (toFixed 2 (times a rate)) = 0
  rw [cents]
  decide +kernel

/-- A deposit bears its fee. -/
theorem fee_le_self (h : 0 ≤ a) : fee a ≤ a := by
  rcases le_total a (9 / 10) with small | large
  · rw [fee_of_small h small]; exact h
  · have := fee_le h
    linarith

theorem netAmount_nonneg (h : 0 ≤ a) : 0 ≤ netAmount a :=
  round_nonneg 52 (sub_nonneg.mpr (fee_le_self h))

/-- A negative deposit takes out no more than it says. -/
theorem le_netAmount (number : IsNumber a) (h : a ≤ 0) : a ≤ netAmount a := by
  have back : fee a ≤ 0 := by
    have := fee_nonneg (neg_nonneg.mpr h)
    rw [fee_neg] at this
    linarith
  calc a = Arithmetic.round a := number.symm
    _ ≤ netAmount a := round_mono 52 (by linarith)

/-- A negative deposit takes out almost all that it says. -/
theorem netAmount_le (h : a ≤ 0) : netAmount a ≤ 99 / 100 * a + 6 / 1000 := by
  have positive : 0 ≤ -a := neg_nonneg.mpr h
  have cost := fee_le positive
  have rest : 999 / 1000 * (-a - fee (-a)) ≤ netAmount (-a) :=
    le_round (sub_nonneg.mpr (fee_le_self positive))
  rw [netAmount_neg] at rest
  linarith

end

/-- Below 2³⁹ doubles are closer to each other than the digits of a balance. -/
theorem toNumber_lt {b : Decimal 4} (h : 0 ≤ b.toRat) (small : b.toRat < 2 ^ 39) :
    toNumber b < b.toRat + 1 / 20000 := by
  have bound : |b.toRat| < (2 : ℚ) ^ (39 : ℤ) := by
    rw [abs_of_nonneg h]; exact_mod_cast small
  have moved : toNumber b - b.toRat ≤ _ := (abs_le.mp (abs_round_sub_lt 52 bound)).2
  norm_num at moved
  linarith

/-- Above that a balance and the next one may be the same double. -/
example : toNumber (⟨6000000000000008⟩ : Decimal 4) = toNumber (⟨6000000000000009⟩ : Decimal 4) := by
  decide +kernel

end Pactic.Doubles
