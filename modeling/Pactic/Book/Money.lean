import Pactic.Book.Spec

/-! # Money in the book

What one job does to balances: when a debit or a credit leaves a balance below
zero, by how much the two sides of a transfer can differ, and how far a balance
drifts from the signed sum of its ledger rows. -/
namespace Pactic
open FixedPoint Keyed

section
variable {b b' : Book} {j : Job} {l : Leg} {w w' : Wallet}

/-! ## Conservation -/

/-- The sum of all balances of a currency, in units of the last digit. -/
def Book.total (b : Book) (currency : String) : Int :=
  (b.wallets.rows.map fun w => if w.currency = currency then w.balance.units else 0).sum

/-- The amount is exactly between two numbers of four digits. -/
def TransferWalletDto.Halfway (d : TransferWalletDto) : Prop := Tie (d.amount * 10 ^ 4)

instance (d : TransferWalletDto) : Decidable d.Halfway := inferInstanceAs (Decidable (Tie _))

/-- A debit that is covered rounds the amount half a unit down. -/
theorem units_debit {a : ℚ} (h : a ≤ w.balance.toRat) :
    (Decimal.ofRat 4 (w.balance.toRat + -a)).units = w.balance.units - ⌈a * 10 ^ 4 - 1 / 2⌉ := by
  rw [← sub_eq_add_neg]; exact Decimal.units_sub h

/-- A credit rounds the amount half a unit up, unless the balance stays below zero. -/
theorem units_credit_eq_iff {a : ℚ} :
    (Decimal.ofRat 4 (w.balance.toRat + a)).units = w.balance.units + ⌈a * 10 ^ 4 - 1 / 2⌉ ↔
      ¬ Tie (a * 10 ^ 4) ∨ w.balance.toRat + a < 0 := by
  by_cases h : 0 ≤ w.balance.toRat + a
  · rw [Decimal.units_add h, add_right_inj, floor_add_half]
    exact ⟨.inl, fun hd => hd.resolve_right (not_lt.mpr h)⟩
  · exact iff_of_true (Decimal.units_add_of_nonpos (not_le.mp h).le) (.inr (not_le.mp h))

def TransferWalletDto.debit (d : TransferWalletDto) : Leg :=
  ⟨d.senderWalletId, d.senderId, d.currency, -d.amount, true⟩

def TransferWalletDto.credit (d : TransferWalletDto) : Leg :=
  ⟨d.recipientWalletId, d.recipientId, d.currency, d.amount, false⟩

/-- The two wallets of a transfer that applies, and the two rows it leaves. -/
theorem Book.apply_transfer {d : TransferWalletDto} (h : b.apply (.transfer d) = some b') :
    ∃ sender recipient, b.Reads d.debit sender ∧ b.Reads d.credit recipient ∧
      d.senderWalletId ≠ d.recipientWalletId ∧
      b'.wallets = (b.wallets.put (d.debit.write sender)).put (d.credit.write recipient) := by
  obtain ⟨nodup, ws, reads, hw, -⟩ := apply_eq_some.mp h
  rcases reads with _ | ⟨hs, _ | ⟨hr, ⟨⟩⟩⟩
  exact ⟨_, _, hs, hr, by simpa [Job.legs] using nodup, hw⟩

theorem TransferWalletDto.debit_units {d : TransferWalletDto} (h : b.Reads d.debit w) :
    (d.debit.write w).balance.units = w.balance.units - ⌈d.amount * 10 ^ 4 - 1 / 2⌉ :=
  units_debit (by simpa [debit] using h.admits.2 rfl)

/-- The total of a currency moves by what the two sides of a transfer differ by. -/
theorem Book.total_transfer {d : TransferWalletDto} {sender recipient : Wallet}
    (hs : b.Reads d.debit sender) (hr : b.Reads d.credit recipient)
    (hne : d.senderWalletId ≠ d.recipientWalletId)
    (hb : b'.wallets = (b.wallets.put (d.debit.write sender)).put (d.credit.write recipient))
    (c : String) : b'.total c = b.total c + if d.currency = c then
      ((d.credit.write recipient).balance.units - recipient.balance.units) -
        (sender.balance.units - (d.debit.write sender).balance.units) else 0 := by
  have hs' : b.wallets.find? (d.debit.write sender).id = some sender := by
    rw [Leg.write_id, hs.id]; exact hs.found
  have hr' : (b.wallets.put (d.debit.write sender)).find? (d.credit.write recipient).id =
      some recipient := by
    rw [Table.find?_put, Leg.write_id, Leg.write_id, hs.id, hr.id]
    exact (if_neg hne).trans hr.found
  have cs : sender.currency = d.currency := hs.admits.1.2.1
  have cr : recipient.currency = d.currency := hr.admits.1.2.1
  simp only [total, hb, Table.sum_put _ _ _ _ hr', Table.sum_put _ _ _ _ hs', Leg.write_currency,
    cs, cr]
  split <;> ring

/-- Both sides of a transfer move by the same number of units, and its currency
keeps its total, exactly if the amount is not halfway between two numbers of
four digits or the credit stays below zero. -/
theorem Book.transfer_conserves_iff {d : TransferWalletDto} {sender recipient : Wallet}
    (hs : b.Reads d.debit sender) (hr : b.Reads d.credit recipient)
    (hne : d.senderWalletId ≠ d.recipientWalletId)
    (hb : b'.wallets = (b.wallets.put (d.debit.write sender)).put (d.credit.write recipient)) :
    (sender.balance.units - (d.debit.write sender).balance.units =
      (d.credit.write recipient).balance.units - recipient.balance.units ∧
      ∀ c, b'.total c = b.total c) ↔
    ¬ d.Halfway ∨ recipient.balance.toRat + d.amount < 0 := by
  have credit : (d.credit.write recipient).balance.units =
      recipient.balance.units + ⌈d.amount * 10 ^ 4 - 1 / 2⌉ ↔
      ¬ d.Halfway ∨ recipient.balance.toRat + d.amount < 0 := units_credit_eq_iff
  rw [← credit]
  constructor
  · rintro ⟨h, -⟩
    have := d.debit_units hs
    omega
  · intro h
    have hd := d.debit_units hs
    refine ⟨by omega, fun c => ?_⟩
    rw [total_transfer hs hr hne hb, h, hd]
    split <;> ring

/-! ## Reconciliation -/

/-- Deposits count for the wallet, withdrawals and transfers against it. -/
def Transaction.signed (t : Transaction) : ℚ :=
  if t.type = .deposit then t.amount.toRat else -t.amount.toRat

def Book.rowsOf (b : Book) (walletId : Int) : List Transaction :=
  b.transactions.rows.filter fun t => t.walletId = walletId

/-- One ledger row for each version of a wallet, and a balance that is off their
signed sum by one unit of the last digit for each at most. -/
structure Book.Reconciles (b : Book) : Prop where
  version : ∀ w ∈ b.wallets.rows, w.version = (b.rowsOf w.id).length
  balance : ∀ w ∈ b.wallets.rows,
    |w.balance.toRat - ((b.rowsOf w.id).map Transaction.signed).sum| ≤ 1 / 10000 * w.version
  wallet : ∀ t ∈ b.transactions.rows, (b.wallets.find? t.walletId).isSome

theorem Decimal.abs_ofRat_four (x : ℚ) : |(Decimal.ofRat 4 x).toRat - x| ≤ 1 / 20000 := by
  have h : |(Decimal.ofRat 4 x).toRat - x| ≤ 1 / 2 / 10 ^ 4 := Decimal.abs_ofRat_sub x
  norm_num at h ⊢; exact h

def TransactionData.signed (d : TransactionData) : ℚ :=
  if d.type = .deposit then d.amount else -d.amount

theorem TransactionData.abs_store_signed_sub (d : TransactionData) :
    |d.store.signed - d.signed| ≤ 1 / 20000 := by
  have h : |d.store.amount.toRat - d.amount| ≤ 1 / 20000 := Decimal.abs_ofRat_four d.amount
  simp only [Transaction.signed, signed, show d.store.type = d.type from rfl]
  split
  · exact h
  · rwa [neg_sub_neg, abs_sub_comm]

/-- Leg by leg, the row a job leaves and what it counts for. -/
theorem Job.legs_rows (j : Job) :
    List.Forall₂ (fun l r => r.walletId = l.walletId ∧ r.signed = l.increment) j.legs j.rows := by
  cases j with
  | funding d => exact .cons ⟨rfl, by simp [TransactionData.signed]⟩ .nil
  | withdrawal d => exact .cons ⟨rfl, by simp [TransactionData.signed]⟩ .nil
  | transfer d =>
    exact .cons ⟨rfl, by simp [TransactionData.signed]⟩
      (.cons ⟨rfl, by simp [TransactionData.signed]⟩ .nil)

theorem Job.rows_walletIds (j : Job) :
    (j.rows.map TransactionData.store).map Transaction.walletId = j.legs.map Leg.walletId := by
  cases j <;> rfl

/-- The one ledger row a job leaves for the wallet of a leg. -/
theorem Job.row_of_leg (hn : (j.legs.map Leg.walletId).Nodup) (hl : l ∈ j.legs) :
    ∃ t, (j.rows.map TransactionData.store).filter (fun t => t.walletId = l.walletId) = [t] ∧
      |t.signed - l.increment| ≤ 1 / 20000 := by
  obtain ⟨r, hr, hid, hsigned⟩ : ∃ r ∈ j.rows, r.walletId = l.walletId ∧ r.signed = l.increment := by
    have h := j.legs_rows
    revert hl
    generalize j.legs = ls, j.rows = rs at h
    intro hl
    induction h with
    | nil => cases hl
    | cons hr _ ih =>
      rcases List.mem_cons.mp hl with rfl | hl
      · exact ⟨_, .head _, hr⟩
      · obtain ⟨r, hmem, h⟩ := ih hl
        exact ⟨r, .tail _ hmem, h⟩
  refine ⟨r.store, ?_, hsigned ▸ r.abs_store_signed_sub⟩
  rw [← hid]
  exact Table.filter_of_nodup (j.rows_walletIds ▸ hn) (List.mem_map_of_mem hr)

theorem Job.rows_wallet {t : Transaction} (ht : t ∈ j.rows.map TransactionData.store) :
    ∃ l ∈ j.legs, l.walletId = t.walletId := by
  have hmem : t.walletId ∈ (j.rows.map TransactionData.store).map Transaction.walletId :=
    List.mem_map_of_mem ht
  rwa [j.rows_walletIds, List.mem_map] at hmem

theorem Book.rowsOf_apply (h : b.apply j = some b') (id : Int) : b'.rowsOf id = b.rowsOf id ++
    (j.rows.map TransactionData.store).filter fun t => t.walletId = id := by
  obtain ⟨-, -, -, -, hledger⟩ := apply_eq_some.mp h
  simp only [rowsOf, Table.rows_of_foldlM_insert? hledger, List.filter_append]

theorem Book.Reconciles.apply (h : b.Reconciles) (ha : b.apply j = some b') : b'.Reconciles := by
  obtain ⟨nodup, -, -, -, hledger⟩ := apply_eq_some.mp ha
  -- a wallet is left alone, or one leg writes it and one row is added for it
  have cases_ {w'} (hw' : w' ∈ b'.wallets.rows) :
      (w' ∈ b.wallets.rows ∧ b'.rowsOf w'.id = b.rowsOf w'.id) ∨
      ∃ l ∈ j.legs, ∃ w ∈ b.wallets.rows, ∃ t, w' = l.write w ∧
        b'.rowsOf w.id = b.rowsOf w.id ++ [t] ∧ |t.signed - l.increment| ≤ 1 / 20000 := by
    rcases apply_mem ha hw' with ⟨hw, hne⟩ | ⟨l, hl, w, hr, rfl⟩
    · refine .inl ⟨hw, ?_⟩
      rw [rowsOf_apply ha, List.filter_eq_nil_iff.mpr, List.append_nil]
      intro t ht he
      obtain ⟨l, hl, hid⟩ := Job.rows_wallet ht
      exact hne l hl (hid.trans (by simpa using he))
    · obtain ⟨t, ht, herr⟩ := Job.row_of_leg nodup hl
      exact .inr ⟨l, hl, w, (Table.find?_eq_some.mp hr.found).1, t, rfl,
        by rw [rowsOf_apply ha, hr.id, ht], herr⟩
  constructor
  · intro w' hw'
    rcases cases_ hw' with ⟨hw, he⟩ | ⟨l, -, w, hw, t, rfl, he, -⟩
    · rw [he]; exact h.version w' hw
    · rw [Leg.write_id, Leg.write_version, he, h.version w hw]; simp
  · intro w' hw'
    rcases cases_ hw' with ⟨hw, he⟩ | ⟨l, -, w, hw, t, rfl, he, herr⟩
    · rw [he]; exact h.balance w' hw
    · rw [Leg.write_id, Leg.write_version, he, List.map_append, List.sum_append]
      simp only [List.map_cons, List.map_nil, List.sum_cons, List.sum_nil, add_zero]
      have stored : |(l.write w).balance.toRat - (w.balance.toRat + l.increment)| ≤ 1 / 20000 :=
        Decimal.abs_ofRat_four _
      have before := h.balance w hw
      rw [abs_le] at stored before herr ⊢
      push_cast
      constructor <;> linarith
  · intro t ht
    rw [Table.rows_of_foldlM_insert? hledger] at ht
    obtain ⟨ws, reads, -, find⟩ := apply_find? ha
    have kept {id} (h₀ : (b.wallets.find? id).isSome) : (b'.wallets.find? id).isSome := by
      rw [find, Option.isSome_or, h₀, Bool.or_true]
    rcases List.mem_append.mp ht with ht | ht
    · exact kept (h.wallet t ht)
    · obtain ⟨l, hl, hid⟩ := Job.rows_wallet ht
      obtain ⟨w, hr, -⟩ := reads_of_mem reads hl
      exact kept (by rw [← hid, hr.found]; rfl)

/-- A new wallet has no ledger rows yet. -/
theorem Book.Reconciles.addWallet {t} (h : b.Reconciles) (hb : w.balance = 0) (hv : w.version = 0)
    (ins : b.wallets.insert? w = some t) : Reconciles { b with wallets := t } := by
  obtain ⟨hnone, hrows⟩ := Table.insert?_eq_some.mp ins
  have none : rowsOf { b with wallets := t } w.id = [] := by
    refine List.filter_eq_nil_iff.mpr fun x hx he => ?_
    have := h.wallet x hx
    rw [of_decide_eq_true he, hnone] at this
    cases this
  have cases_ {v} (hv : v ∈ t.rows) : v ∈ b.wallets.rows ∨ v = w := by
    rw [hrows] at hv; simpa using hv
  constructor
  · intro v hmem
    rcases cases_ hmem with hmem | rfl
    · exact h.version v hmem
    · rw [hv, none]; rfl
  · intro v hmem
    rcases cases_ hmem with hmem | rfl
    · exact h.balance v hmem
    · rw [hv, hb, none]; norm_num [Decimal.toRat]
  · intro x hx
    rw [Table.find?_of_insert? ins]
    split
    · rfl
    · exact h.wallet x hx

/-! ## Deposits -/

def Event.deposit? : Event → Option FundWalletDto
  | committed (.funding d) => some d
  | _ => none

theorem exact_netAmount {a : ℚ} (h : Decimal.Exact 4 a) : Decimal.Exact 4 (netAmount a) := by
  rw [netAmount_exact, sub_eq_add_neg]
  exact h.add (Decimal.Exact.neg (Decimal.exact_add_digits (Decimal.ofRat 2 _) 2))

/-- Deposits of four digits add up in the wallet they all go to. -/
theorem Book.balance_deposits {es : List Event} (h : es.foldlM replay b = some b')
    (found : b.wallets.find? w.id = some w)
    (hes : ∀ e ∈ es, (∃ t, e = .requestCreated t) ∨
      ∃ d, e = .committed (.funding d) ∧ d.walletId = w.id ∧ Decimal.Exact 4 d.amount) :
    ∃ v, b'.wallets.find? w.id = some v ∧ v.balance.toRat =
      w.balance.toRat + ((es.filterMap Event.deposit?).map fun d => netAmount d.amount).sum := by
  induction es generalizing b w with
  | nil => cases h; exact ⟨w, found, by simp⟩
  | cons e es ih =>
    simp only [List.foldlM_cons, Option.bind_eq_bind, Option.bind_eq_some_iff] at h
    obtain ⟨mid, he, hrest⟩ := h
    have rest : ∀ e ∈ es, _ := fun e he => hes e (.tail _ he)
    rcases hes e (.head _) with ⟨t, rfl⟩ | ⟨d, rfl, hid, exact⟩
    · cases he
      exact ih hrest found rest
    · obtain ⟨x, reads, written⟩ := apply_write he (.head _)
      have same : x = w := by
        have hx := reads.found
        rw [hid, found] at hx
        exact (Option.some.inj hx).symm
      subst same
      let l : Leg := ⟨d.walletId, d.userId, d.currency, netAmount d.amount, false⟩
      have found : mid.wallets.find? (l.write x).id = some (l.write x) := by
        rw [Leg.write_id, ← hid]
        exact written
      obtain ⟨v, hv, balance⟩ := ih hrest found rest
      have added : (l.write x).balance.toRat = x.balance.toRat + netAmount d.amount :=
        Decimal.ofRat_add (exact_netAmount exact)
      refine ⟨v, hv, ?_⟩
      rw [balance, added, add_assoc]
      rfl

end
end Pactic
