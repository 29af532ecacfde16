import Pactic.Book.Money
import Pactic.Protocol.Conform
import Mathlib.Data.Sign.Basic

/-! # The fee of a deposit

The fee goes up by a cent at every odd whole amount, the amount itself by as
little as its last digit. A row has room for two digits more than a fee, so
splitting the fee off an amount loses nothing. -/
namespace Pactic
open FixedPoint Resumption

theorem fee_of_nonneg {a : ℚ} (h : 0 ≤ a) : fee a = ⌊(a + 1) / 2⌋ / 100 := by
  have scaled : a * (5 / 1000) * 10 ^ 2 + 1 / 2 = (a + 1) / 2 := by ring
  have hs : 0 ≤ a * (5 / 1000) * 10 ^ 2 := by positivity
  rw [fee_exact, Decimal.ofRat, Decimal.toRat, roundAway_of_nonneg hs, scaled]
  norm_num

theorem fee_neg (a : ℚ) : fee (-a) = -fee a := by
  have scaled : -a * (5 / 1000) * 10 ^ 2 = -(a * (5 / 1000) * 10 ^ 2) := by ring
  rw [fee_exact, fee_exact, Decimal.ofRat, Decimal.ofRat, Decimal.toRat, Decimal.toRat, scaled, roundAway_neg,
    Int.cast_neg, neg_div]

/-- The fee takes a part of the amount. -/
theorem fee_mem {a : ℚ} (h : 0 ≤ a) : 0 ≤ fee a ∧ fee a ≤ a := by
  rw [fee_of_nonneg h]
  have low : (0 : ℤ) ≤ ⌊(a + 1) / 2⌋ := Int.floor_nonneg.mpr (by positivity)
  have high := Int.floor_le ((a + 1) / 2)
  refine ⟨div_nonneg (Int.cast_nonneg_iff.mpr low) (by norm_num), ?_⟩
  rcases low.eq_or_lt with zero | pos
  · rw [← zero]
    simpa using h
  · have one : (1 : ℚ) ≤ ⌊(a + 1) / 2⌋ := by exact_mod_cast pos
    linarith

theorem fee_mem_of_nonpos {a : ℚ} (h : a ≤ 0) : a ≤ fee a ∧ fee a ≤ 0 := by
  obtain ⟨low, high⟩ := fee_mem (neg_nonneg.mpr h)
  rw [fee_neg] at low high
  constructor <;> linarith

/-- Half a cent from half a percent. -/
theorem abs_fee_sub (a : ℚ) : |fee a - a / 200| ≤ 5 / 1000 := by
  have h : |fee a - a * (5 / 1000)| ≤ 1 / 2 / 10 ^ 2 := Decimal.abs_ofRat_sub _
  rw [show a / 200 = a * (5 / 1000) by ring]
  norm_num at h ⊢
  exact h

/-- An odd whole amount above `a` and up to `b`: the fee of `b` is a cent more. -/
def FeeStep (a b : ℚ) : Prop := ∃ k : ℤ, a < 2 * k + 1 ∧ 2 * k + 1 ≤ b

/-- The fee stays the same unless it steps up in between. -/
theorem floor_eq_of_not_feeStep {a b : ℚ} (h : a ≤ b) (hs : ¬ FeeStep a b) :
    ⌊(a + 1) / 2⌋ = ⌊(b + 1) / 2⌋ := by
  refine le_antisymm (Int.floor_le_floor (by linarith)) (not_lt.mp fun hlt => hs ?_)
  have low := Int.lt_floor_add_one ((a + 1) / 2)
  have high := Int.floor_le ((b + 1) / 2)
  have next : ((⌊(a + 1) / 2⌋ + 1 : ℤ) : ℚ) ≤ ⌊(b + 1) / 2⌋ := Int.cast_le.mpr hlt
  push_cast at next
  exact ⟨⌊(a + 1) / 2⌋, by linarith, by linarith⟩

theorem floor_lt_of_feeStep {a b : ℚ} (hs : FeeStep a b) : ⌊(a + 1) / 2⌋ < ⌊(b + 1) / 2⌋ := by
  obtain ⟨k, ha, hb⟩ := hs
  have low : ⌊(a + 1) / 2⌋ < k + 1 := Int.floor_lt.mpr (by push_cast; linarith)
  have high : k + 1 ≤ ⌊(b + 1) / 2⌋ := Int.le_floor.mpr (by push_cast; linarith)
  omega

/-- A cent more pays for every step of the fee on the way. -/
theorem floor_sub_le {a b : ℚ} (h : 1 / 100 ≤ b - a) :
    ((⌊(b + 1) / 2⌋ - ⌊(a + 1) / 2⌋ : ℤ) : ℚ) ≤ 100 * (b - a) := by
  have low := Int.lt_floor_add_one ((a + 1) / 2)
  have high := Int.floor_le ((b + 1) / 2)
  by_cases hn : ⌊(b + 1) / 2⌋ - ⌊(a + 1) / 2⌋ ≤ 1
  · have : ((⌊(b + 1) / 2⌋ - ⌊(a + 1) / 2⌋ : ℤ) : ℚ) ≤ 1 := by exact_mod_cast hn
    linarith
  · have : (2 : ℚ) ≤ ((⌊(b + 1) / 2⌋ - ⌊(a + 1) / 2⌋ : ℤ) : ℚ) := by
      exact_mod_cast (by omega : 2 ≤ ⌊(b + 1) / 2⌋ - ⌊(a + 1) / 2⌋)
    push_cast at this ⊢
    linarith

/-- Depositing more credits no less, exactly if it is a cent more or the fee
does not step up in between. -/
theorem netAmount_mono_iff {a b : ℚ} (ha : 0 ≤ a) (h : a ≤ b) :
    netAmount a ≤ netAmount b ↔ 1 / 100 ≤ b - a ∨ ¬ FeeStep a b := by
  rw [netAmount_exact, netAmount_exact, fee_of_nonneg ha, fee_of_nonneg (ha.trans h)]
  constructor
  · intro hle
    by_contra hc
    obtain ⟨small, step⟩ := not_or.mp hc
    have up : ((⌊(a + 1) / 2⌋ + 1 : ℤ) : ℚ) ≤ ⌊(b + 1) / 2⌋ :=
      Int.cast_le.mpr (floor_lt_of_feeStep (not_not.mp step))
    push_cast at up
    linarith
  · rintro (cent | same)
    · have := floor_sub_le cent
      push_cast at this
      linarith
    · rw [floor_eq_of_not_feeStep h same]
      linarith

theorem netAmount_mono_whole : netAmount 1 ≤ netAmount 2 :=
  (netAmount_mono_iff (by norm_num) (by norm_num)).mpr (.inl (by norm_num))

/-- A deposit of 0.9999 is free of charge, one of 1 costs a cent. -/
theorem deposit_of_more_credits_less : ∃ a b : ℚ, 0 ≤ a ∧ a ≤ b ∧ Decimal.Exact 4 a ∧
    Decimal.Exact 4 b ∧ netAmount b < netAmount a :=
  ⟨9999 / 10000, 1, by norm_num, by norm_num, by decide +kernel, by decide +kernel, by decide +kernel⟩

/-! ## The row of a deposit -/

/-- What a row makes of the amount `a` of its deposit. -/
structure Transaction.Splits (t : Transaction) (a : ℚ) : Prop where
  whole : t.amount.toRat + t.fee.toRat = (Decimal.ofRat 4 a).toRat
  fee_le : 0 ≤ |t.fee.toRat| ∧ |t.fee.toRat| ≤ |a|
  fee_sign : t.fee.toRat = 0 ∨ SignType.sign t.fee.toRat = SignType.sign a
  fee_near : |t.fee.toRat - a / 200| ≤ 5 / 1000

/-- A fee has two digits and is stored as it is. -/
theorem toRat_ofRat_fee (a : ℚ) : (Decimal.ofRat 4 (fee a)).toRat = fee a :=
  Decimal.exact_add_digits (Decimal.ofRat 2 _) 2

/-- The net amount has the sign of the amount, so taking the fee off it changes
none of the digits that are rounded. -/
theorem split_amount (a : ℚ) :
    (Decimal.ofRat 4 (netAmount a)).toRat + fee a = (Decimal.ofRat 4 a).toRat := by
  have parts : (Decimal.ofRat 4 (fee a)).toRat + netAmount a = a := by
    rw [toRat_ofRat_fee, netAmount_exact, add_sub_cancel]
  have sign : 0 ≤ netAmount a ∧ 0 ≤ (Decimal.ofRat 4 (fee a)).toRat + netAmount a ∨
      netAmount a ≤ 0 ∧ (Decimal.ofRat 4 (fee a)).toRat + netAmount a ≤ 0 := by
    rw [parts, netAmount_exact]
    rcases le_total 0 a with h | h
    · exact .inl ⟨sub_nonneg.mpr (fee_mem h).2, h⟩
    · exact .inr ⟨sub_nonpos.mpr (fee_mem_of_nonpos h).1, h⟩
  have stored := Decimal.toRat_ofRat_add sign
  rw [parts, toRat_ofRat_fee] at stored
  rw [stored, add_comm]

theorem fee_sign (a : ℚ) : fee a = 0 ∨ SignType.sign (fee a) = SignType.sign a := by
  by_cases zero : fee a = 0
  · exact .inl zero
  right
  rcases le_total 0 a with h | h
  · have pos : 0 < fee a := lt_of_le_of_ne (fee_mem h).1 (Ne.symm zero)
    rw [sign_pos pos, sign_pos (pos.trans_le (fee_mem h).2)]
  · have neg : fee a < 0 := lt_of_le_of_ne (fee_mem_of_nonpos h).2 zero
    rw [sign_neg neg, sign_neg ((fee_mem_of_nonpos h).1.trans_lt neg)]

theorem abs_fee_le (a : ℚ) : |fee a| ≤ |a| := by
  rcases le_total 0 a with h | h
  · rw [abs_of_nonneg (fee_mem h).1, abs_of_nonneg h]
    exact (fee_mem h).2
  · rw [abs_of_nonpos (fee_mem_of_nonpos h).2, abs_of_nonpos h]
    exact neg_le_neg (fee_mem_of_nonpos h).1

/-- Every row the handler writes is one row that splits the amount. -/
theorem fundingHandler_splits (d : FundWalletDto) : (fundingHandler d).Only fun op =>
    ∀ rows, op = .tx (.transactionCreate rows) →
      ∃ t, rows.map TransactionData.store = [t] ∧ t.Splits d.amount := by
  let m : Message := ⟨.walletFunding, .job (.funding d), none, 0⟩
  have keeps : (protocol (.delivery m)).wp (fundingHandler d) Finished ⟨.fresh, []⟩ :=
    fundingHandler_keeps rfl rfl
  refine Monitor.only_of_wp _ (fun p op allowed rows he => ?_) keeps
  subst he
  obtain ⟨j, n, md, hj, -, rfl⟩ := allowed
  cases hj
  refine ⟨_, rfl, ?_, ?_, ?_, ?_⟩
  all_goals dsimp only [TransactionData.store]; rw [toRat_ofRat_fee]
  · exact split_amount d.amount
  · exact ⟨abs_nonneg _, abs_fee_le d.amount⟩
  · exact fee_sign d.amount
  · exact abs_fee_sub d.amount

end Pactic
