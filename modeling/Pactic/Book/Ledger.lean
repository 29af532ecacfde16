import Pactic.Book.Money
import Pactic.Protocol.Spec

/-! # What the book keeps

A wallet stays the wallet it is, and a version number tells its rows apart. The
ledger keeps two rows for a transfer that point at each other and cancel, and one
row for anything else. So what is in the wallets of a currency is what came in
less what went out, but for the rounding. -/
namespace Pactic
open FixedPoint Keyed

/-- A later row of the same wallet. -/
structure Wallet.Later (v w : Wallet) : Prop where
  id : w.id = v.id
  userId : w.userId = v.userId
  currency : w.currency = v.currency
  createdAt : w.createdAt = v.createdAt
  deletedAt : w.deletedAt = v.deletedAt
  version : v.version ≤ w.version
  same : v.version = w.version → v = w

namespace Wallet.Later
variable {u v w : Wallet}

theorem rfl : v.Later v := ⟨.refl _, .refl _, .refl _, .refl _, .refl _, le_rfl, fun _ => .refl _⟩

theorem trans (h : u.Later v) (h' : v.Later w) : u.Later w where
  id := h'.id.trans h.id
  userId := h'.userId.trans h.userId
  currency := h'.currency.trans h.currency
  createdAt := h'.createdAt.trans h.createdAt
  deletedAt := h'.deletedAt.trans h.deletedAt
  version := h.version.trans h'.version
  same he := by
    have first : u.version = v.version := le_antisymm h.version (he ▸ h'.version)
    exact (h.same first).trans (h'.same (first.symm.trans he))

theorem write (l : Leg) (w : Wallet) : w.Later (l.write w) :=
  ⟨.refl _, .refl _, .refl _, .refl _, .refl _, by simp, fun he => by simp at he⟩

end Wallet.Later

/-- The two rows of a transfer, the sender's first. -/
structure Transaction.Pairs (t t' : Transaction) : Prop where
  reference : ∃ txId, t.reference = txId ++ "-sender" ∧ t'.reference = txId ++ "-recipient"
  type : t.type = .transfer ∧ t'.type = .deposit
  amount : t'.amount = t.amount
  fee : t.fee = 0 ∧ t'.fee = 0
  sentTo : t.metadata = some (.to t'.walletId)
  receivedFrom : t'.metadata = some (.from t.walletId)
  apart : t.walletId ≠ t'.walletId

/-- The wallets of two rows have the same currency. -/
def Book.SameCurrency (b : Book) (t t' : Transaction) : Prop :=
  ∃ w ∈ b.wallets.rows, ∃ w' ∈ b.wallets.rows,
    w.id = t.walletId ∧ w'.id = t'.walletId ∧ w.currency = w'.currency

/-- Every row is the owner's, and stands on its own or is one side of a
transfer. The sides of all transfers cancel. -/
structure Book.DoubleEntry (b : Book) : Prop where
  owner : ∀ t ∈ b.transactions.rows, ∃ w ∈ b.wallets.rows, w.id = t.walletId ∧ w.userId = t.userId
  single : ∀ t ∈ b.transactions.rows, t.metadata = none →
    t.type = .deposit ∨ t.type = .withdrawal ∧ t.fee = 0
  paired : ∀ t ∈ b.transactions.rows, t.metadata ≠ none →
    ∃ t' ∈ b.transactions.rows, (t.Pairs t' ∨ t'.Pairs t) ∧ b.SameCurrency t t'
  settled : ((b.transactions.rows.filter fun t => t.metadata ≠ none).map Transaction.signed).sum = 0

/-- What a job brings into its currency. -/
def Job.intake : Job → ℚ
  | funding d => netAmount d.amount
  | withdrawal d => -d.amount
  | transfer _ => 0

/-- What rounding may add to that or take from it, in units of the last digit. -/
def Job.slack : Job → ℚ
  | transfer _ => 1
  | _ => 1 / 2

section
variable {b b' : Book} {j : Job} {l : Leg} {w w' : Wallet} {t t' : Transaction}

/-! ## Wallets -/

theorem Book.apply_later (h : b.apply j = some b') (hw : w ∈ b.wallets.rows) :
    ∃ w' ∈ b'.wallets.rows, w.Later w' := by
  obtain ⟨ws, reads, -, find⟩ := apply_find? h
  have here : b.wallets.find? w.id = some w := Table.find?_eq_some.mpr ⟨hw, rfl⟩
  cases hf : (List.zipWith Leg.write j.legs ws).find? fun v => v.id = w.id with
  | none =>
    have kept : b'.wallets.find? w.id = some w := by rw [find, hf, Option.none_or, here]
    exact ⟨w, (Table.find?_eq_some.mp kept).1, .rfl⟩
  | some v =>
    obtain ⟨l, -, w₀, hr, rfl⟩ := mem_writes reads (List.mem_of_find?_eq_some hf)
    have named := List.find?_some hf
    simp only [decide_eq_true_eq] at named
    have hid : w₀.id = w.id := named
    cases Table.eq_of_key _ (Table.find?_eq_some.mp hr.found).1 hw hid
    have written : b'.wallets.find? w.id = some (l.write w) := by rw [find, hf, Option.some_or]
    exact ⟨l.write w, (Table.find?_eq_some.mp written).1, .write l w⟩

/-- No event of the journal drops a wallet or turns back its version. -/
theorem Book.replay_later {e : Event} (h : b.replay e = some b') (hw : w ∈ b.wallets.rows) :
    ∃ w' ∈ b'.wallets.rows, w.Later w' := by
  by_cases he : ∃ j, e = .committed j
  · obtain ⟨j, rfl⟩ := he
    exact apply_later h hw
  · exact ⟨w, replay_keeps h (fun j hj => he ⟨j, hj⟩) w hw, .rfl⟩

theorem Book.replays_later {es : List Event} (h : es.foldlM replay b = some b')
    (hw : w ∈ b.wallets.rows) : ∃ w' ∈ b'.wallets.rows, w.Later w' := by
  induction es generalizing b w with
  | nil =>
    cases h
    exact ⟨w, hw, .rfl⟩
  | cons e es ih =>
    simp only [List.foldlM_cons, Option.bind_eq_bind, Option.bind_eq_some_iff] at h
    obtain ⟨mid, he, rest⟩ := h
    obtain ⟨v, hv, first⟩ := replay_later he hw
    obtain ⟨w', hw', second⟩ := ih rest hv
    exact ⟨w', hw', first.trans second⟩

/-- A wallet that was made is still there. -/
theorem Book.created_later {es : List Event} (h : es.foldlM replay b = some b')
    (hw : .walletCreated w ∈ es) : ∃ w' ∈ b'.wallets.rows, w.Later w' := by
  obtain ⟨before, after, rfl⟩ := List.append_of_mem hw
  simp only [List.foldlM_append, List.foldlM_cons, Option.bind_eq_bind,
    Option.bind_eq_some_iff] at h
  obtain ⟨b₁, -, b₂, made, rest⟩ := h
  simp only [replay, Option.map_eq_some_iff] at made
  obtain ⟨ws, ins, rfl⟩ := made
  refine replays_later rest ?_
  rw [show ws.rows = _ from (Table.insert?_eq_some.mp ins).2]
  exact List.mem_append_right _ (List.mem_singleton_self _)

/-! ## The ledger -/

theorem Book.SameCurrency.later (h : b.SameCurrency t t')
    (later : ∀ w ∈ b.wallets.rows, ∃ w' ∈ b'.wallets.rows, w.Later w') : b'.SameCurrency t t' := by
  obtain ⟨w, hw, w', hw', hid, hid', same⟩ := h
  obtain ⟨v, hv, hl⟩ := later w hw
  obtain ⟨v', hv', hl'⟩ := later w' hw'
  exact ⟨v, hv, v', hv', hl.id.trans hid, hl'.id.trans hid',
    hl.currency.trans (same.trans hl'.currency.symm)⟩

theorem Book.SameCurrency.symm (h : b.SameCurrency t t') : b.SameCurrency t' t := by
  obtain ⟨w, hw, w', hw', hid, hid', same⟩ := h
  exact ⟨w', hw', w, hw, hid', hid, same.symm⟩

theorem Book.DoubleEntry.of_empty (h : b.transactions.rows = []) : b.DoubleEntry where
  owner t ht := by rw [h] at ht; cases ht
  single t ht := by rw [h] at ht; cases ht
  paired t ht := by rw [h] at ht; cases ht
  settled := by rw [h]; rfl

/-- Other wallets and later rows of the same ones do not matter to the ledger. -/
theorem Book.DoubleEntry.later (h : b.DoubleEntry) (hl : b'.transactions = b.transactions)
    (later : ∀ w ∈ b.wallets.rows, ∃ w' ∈ b'.wallets.rows, w.Later w') : b'.DoubleEntry where
  owner t ht := by
    obtain ⟨w, hw, hid, hu⟩ := h.owner t (hl ▸ ht)
    obtain ⟨w', hw', hlater⟩ := later w hw
    exact ⟨w', hw', hlater.id.trans hid, hlater.userId.trans hu⟩
  single t ht := h.single t (hl ▸ ht)
  paired t ht hm := by
    obtain ⟨t', ht', hp, same⟩ := h.paired t (hl ▸ ht) hm
    exact ⟨t', hl ▸ ht', hp, same.later later⟩
  settled := by rw [hl]; exact h.settled

/-- The row of a leg belongs to the wallet the leg has read. -/
theorem Job.rows_owner {j : Job} (ht : t ∈ j.rows.map TransactionData.store) :
    ∃ l ∈ j.legs, l.walletId = t.walletId ∧ l.userId = t.userId := by
  obtain ⟨d, hd, rfl⟩ := List.mem_map.mp ht
  cases j with
  | funding x => cases List.mem_singleton.mp hd; exact ⟨_, .head _, rfl, rfl⟩
  | withdrawal x => cases List.mem_singleton.mp hd; exact ⟨_, .head _, rfl, rfl⟩
  | transfer x =>
    rcases List.mem_cons.mp hd with rfl | hd
    · exact ⟨_, .head _, rfl, rfl⟩
    · cases List.mem_singleton.mp hd
      exact ⟨_, .tail _ (.head _), rfl, rfl⟩

theorem Decimal.ofRat_zero (d : ℕ) : Decimal.ofRat d 0 = 0 := by
  have h := roundAway_intCast 0
  rw [Int.cast_zero] at h
  simp only [Decimal.ofRat, zero_mul, h]
  rfl

def TransferWalletDto.sent (d : TransferWalletDto) : TransactionData where
  userId := d.senderId
  walletId := d.senderWalletId
  type := .transfer
  amount := d.amount
  reference := d.txId ++ "-sender"
  metadata := some (.to d.recipientWalletId)

def TransferWalletDto.received (d : TransferWalletDto) : TransactionData where
  userId := d.recipientId
  walletId := d.recipientWalletId
  type := .deposit
  amount := d.amount
  reference := d.txId ++ "-recipient"
  metadata := some (.from d.senderWalletId)

theorem TransferWalletDto.pairs {d : TransferWalletDto}
    (hne : d.senderWalletId ≠ d.recipientWalletId) : d.sent.store.Pairs d.received.store where
  reference := ⟨d.txId, rfl, rfl⟩
  type := ⟨rfl, rfl⟩
  amount := rfl
  fee := ⟨Decimal.ofRat_zero 4, Decimal.ofRat_zero 4⟩
  sentTo := rfl
  receivedFrom := rfl
  apart := hne

/-- Only the rows of a transfer say where the money went. -/
theorem Job.rows_metadata {j : Job} (ht : t ∈ j.rows.map TransactionData.store) :
    (t.metadata = none ∧ (t.type = .deposit ∨ t.type = .withdrawal ∧ t.fee = 0)) ∨
      ∃ d, j = .transfer d ∧ (t = d.sent.store ∨ t = d.received.store) := by
  obtain ⟨r, hr, rfl⟩ := List.mem_map.mp ht
  cases j with
  | funding x => cases List.mem_singleton.mp hr; exact .inl ⟨rfl, .inl rfl⟩
  | withdrawal x =>
    cases List.mem_singleton.mp hr
    exact .inl ⟨rfl, .inr ⟨rfl, Decimal.ofRat_zero 4⟩⟩
  | transfer x =>
    rcases List.mem_cons.mp hr with rfl | hr
    · exact .inr ⟨x, rfl, .inl rfl⟩
    · cases List.mem_singleton.mp hr
      exact .inr ⟨x, rfl, .inr rfl⟩

theorem Job.rows_settled (j : Job) : (((j.rows.map TransactionData.store).filter fun t =>
    t.metadata ≠ none).map Transaction.signed).sum = 0 := by
  cases j with
  | funding d => rfl
  | withdrawal d => rfl
  | transfer d =>
    have sides : ((Job.transfer d).rows.map TransactionData.store).filter
        (fun t => t.metadata ≠ none) = [d.sent.store, d.received.store] := rfl
    rw [sides]
    simp [Transaction.signed, TransferWalletDto.sent, TransferWalletDto.received,
      TransactionData.store]

/-- The two rows a transfer leaves are those of its wallets. -/
theorem Book.apply_sameCurrency {d : TransferWalletDto} (h : b.apply (.transfer d) = some b') :
    b'.SameCurrency d.sent.store d.received.store := by
  obtain ⟨w, reads, found⟩ := apply_write h (l := d.debit) (.head _)
  obtain ⟨w', reads', found'⟩ := apply_write h (l := d.credit) (.tail _ (.head _))
  refine ⟨_, (Table.find?_eq_some.mp found).1, _, (Table.find?_eq_some.mp found').1, ?_, ?_, ?_⟩
  · exact reads.id
  · exact reads'.id
  · exact (reads.admits.1.2.1 : w.currency = d.currency).trans reads'.admits.1.2.1.symm

theorem Book.DoubleEntry.apply (h : b.DoubleEntry) (ha : b.apply j = some b') :
    b'.DoubleEntry := by
  obtain ⟨nodup, -, -, -, hledger⟩ := apply_eq_some.mp ha
  have rows := Table.rows_of_foldlM_insert? hledger
  have old : ({ b' with transactions := b.transactions } : Book).DoubleEntry := by
    refine h.later rfl fun w hw => ?_
    obtain ⟨w', hw', later⟩ := apply_later ha hw
    exact ⟨w', hw', later⟩
  constructor
  · intro t ht
    rw [rows] at ht
    rcases List.mem_append.mp ht with ht | ht
    · exact old.owner t ht
    · obtain ⟨l, hl, hid, hu⟩ := Job.rows_owner ht
      obtain ⟨w, reads, found⟩ := apply_write ha hl
      refine ⟨_, (Table.find?_eq_some.mp found).1, reads.id.trans hid, ?_⟩
      exact (reads.admits.1.1 : w.userId = l.userId).trans hu
  · intro t ht hm
    rw [rows] at ht
    rcases List.mem_append.mp ht with ht | ht
    · exact old.single t ht hm
    · rcases Job.rows_metadata ht with ⟨-, kind⟩ | ⟨d, -, rfl | rfl⟩
      · exact kind
      · cases hm
      · cases hm
  · intro t ht hm
    rw [rows] at ht ⊢
    rcases List.mem_append.mp ht with ht | ht
    · obtain ⟨t', ht', pairs, same⟩ := old.paired t ht hm
      exact ⟨t', List.mem_append_left _ ht', pairs, same⟩
    · rcases Job.rows_metadata ht with ⟨none, -⟩ | ⟨d, rfl, side⟩
      · exact absurd none hm
      have pairs := TransferWalletDto.pairs (d := d) (by simpa [Job.legs] using nodup)
      have same := apply_sameCurrency ha
      rcases side with rfl | rfl
      · exact ⟨_, List.mem_append_right _ (.tail _ (.head _)), .inl pairs, same⟩
      · exact ⟨_, List.mem_append_right _ (.head _), .inr pairs, same.symm⟩
  · rw [rows, List.filter_append, List.map_append, List.sum_append, h.settled, Job.rows_settled,
      add_zero]

/-- An event other than a commit leaves the ledger as it is. -/
theorem Book.replay_transactions {e : Event} (h : b.replay e = some b')
    (he : ∀ j, e ≠ .committed j) : b'.transactions = b.transactions := by
  cases e with
  | committed j => exact absurd rfl (he j)
  | walletCreated v =>
    simp only [replay, Option.map_eq_some_iff] at h
    obtain ⟨t, -, rfl⟩ := h
    rfl
  | _ => cases h; rfl

theorem Book.DoubleEntry.replay {e : Event} (h : b.DoubleEntry) (hr : b.replay e = some b') :
    b'.DoubleEntry := by
  by_cases he : ∃ j, e = .committed j
  · obtain ⟨j, rfl⟩ := he
    exact h.apply hr
  · exact h.later (replay_transactions hr fun j hj => he ⟨j, hj⟩) fun w hw => replay_later hr hw

/-! ## What comes in and what goes out -/

/-- The total of a currency moves by what a wallet of it moves by. -/
theorem Book.total_put {l : Leg} (hr : b.Reads l w) (hb : b'.wallets = b.wallets.put (l.write w))
    (c : String) : b'.total c = b.total c +
      if l.currency = c then (l.write w).balance.units - w.balance.units else 0 := by
  have found : b.wallets.find? (l.write w).id = some w := by
    rw [Leg.write_id, hr.id]
    exact hr.found
  have currency : w.currency = l.currency := hr.admits.1.2.1
  simp only [total, hb, Table.sum_put _ _ _ _ found, Leg.write_currency, currency]
  split <;> ring

/-- A leg moves its balance by its increment, rounded. -/
theorem Leg.abs_units_sub (l : Leg) (w : Wallet) :
    |((l.write w).balance.units - w.balance.units : ℤ) - l.increment * 10 ^ 4| ≤ (1 / 2 : ℚ) := by
  have rounded := abs_roundAway_sub ((w.balance.toRat + l.increment) * 10 ^ 4)
  have before := Decimal.toRat_mul_scale w.balance
  have after : (l.write w).balance.units = roundAway ((w.balance.toRat + l.increment) * 10 ^ 4) := rfl
  rw [after, Int.cast_sub, ← before]
  rw [add_mul] at rounded ⊢
  rw [abs_le] at rounded ⊢
  constructor <;> linarith

/-- What a job may do to the total of a currency: what it brings in, but for the
rounding of each leg. -/
def Job.Accounts (j : Job) (c : String) (moved : Int) : Prop :=
  |(moved : ℚ) - if j.currency = c then j.intake * 10 ^ 4 else 0| ≤
    if j.currency = c then j.slack else 0

theorem Job.Accounts.single {l : Leg} (hc : l.currency = j.currency) (hi : l.increment = j.intake)
    (hs : j.slack = 1 / 2) (w : Wallet) (c : String) : j.Accounts c
      (if l.currency = c then (l.write w).balance.units - w.balance.units else 0) := by
  rw [Accounts, hc, ← hi, hs]
  split
  · exact l.abs_units_sub w
  · simp

theorem Book.total_apply (h : b.apply j = some b') (c : String) :
    j.Accounts c (b'.total c - b.total c) := by
  obtain ⟨-, ws, reads, hb, -⟩ := apply_eq_some.mp h
  cases j with
  | funding d =>
    rcases reads with _ | ⟨hr, ⟨⟩⟩
    rw [total_put hr hb, add_sub_cancel_left]
    exact .single rfl rfl rfl _ c
  | withdrawal d =>
    rcases reads with _ | ⟨hr, ⟨⟩⟩
    rw [total_put hr hb, add_sub_cancel_left]
    exact .single rfl rfl rfl _ c
  | transfer d =>
    obtain ⟨sender, recipient, hs, hr, hne, hb⟩ := apply_transfer h
    have paid := d.debit.abs_units_sub sender
    have credited := d.credit.abs_units_sub recipient
    rw [show d.debit.increment = -d.amount from rfl] at paid
    rw [show d.credit.increment = d.amount from rfl] at credited
    rw [Job.Accounts, total_transfer hs hr hne hb, add_sub_cancel_left]
    simp only [Job.currency, Job.intake, Job.slack, zero_mul, ite_self]
    by_cases hc : d.currency = c
    · simp only [hc, if_true]
      push_cast at paid credited ⊢
      rw [abs_le] at paid credited ⊢
      constructor <;> linarith
    · simp [hc]

end
end Pactic
