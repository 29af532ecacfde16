import Pactic.Book.Doubles
import Pactic.Book.Money
import Pactic.Wallets.Commits
import Pactic.Protocol.Messages

/-! # Balances

Debits are covered and transfers credit what is positive, so only a deposit can
take a balance below zero, as its amount has no lower bound, or a debit from a
balance so large that doubles no longer tell it from the amount. Transfers
conserve money but for the amounts that round away from each other, and every
balance stays within the rounding error of its ledger. -/
namespace Pactic
open FixedPoint Keyed Resumption

/-! ## Signs

The results up to the transfers are about the machine that computes with doubles. -/

section
attribute [local instance] Arithmetic.doubles

def Job.amount : Job → ℚ
  | funding d => d.amount
  | withdrawal d => d.amount
  | transfer d => d.amount

/-- The amount in the body of a request, if there is one, is a double. -/
def Step.Numeric : Step → Prop
  | .start (.http _ r) => ∀ j ∈ r.job?, IsNumber j.amount
  | _ => True

instance : (l : Step) → Decidable l.Numeric
  | .start (.http _ r) => inferInstanceAs (Decidable (∀ j ∈ r.job?, IsNumber j.amount))
  | .start (.delivery _) => isTrue trivial
  | .run _ _ => isTrue trivial
  | .env _ => isTrue trivial
  | .kill _ => isTrue trivial

/-- Runs of the wallet endpoints and of the processors on doubles. -/
def NumberRun (s : State) (l : Step) : Prop := WalletRun s l ∧ l.Numeric

/-- Doubles tell a balance from the amounts next to it, or it bears this one. -/
def Tells (balance : Decimal 4) (amount : ℚ) : Prop :=
  balance.toRat < 2 ^ 39 ∨ amount ≤ balance.toRat

instance (b : Decimal 4) (a : ℚ) : Decidable (Tells b a) := inferInstanceAs (Decidable (_ ∨ _))

/-- A deposit takes out no more than the wallet has, and a debit is told from it. -/
def Job.Borne (ws : List Wallet) : Job → Prop
  | funding d => ∀ w ∈ ws, w.id = d.walletId → 0 ≤ w.balance.toRat + d.amount
  | withdrawal d => ∀ w ∈ ws, w.id = d.walletId → Tells w.balance d.amount
  | transfer d => ∀ w ∈ ws, w.id = d.senderWalletId → Tells w.balance d.amount

instance (ws : List Wallet) : (j : Job) → Decidable (j.Borne ws)
  | .funding d => inferInstanceAs (Decidable (∀ w ∈ ws, w.id = d.walletId → _))
  | .withdrawal d => inferInstanceAs (Decidable (∀ w ∈ ws, w.id = d.walletId → _))
  | .transfer d => inferInstanceAs (Decidable (∀ w ∈ ws, w.id = d.senderWalletId → _))

/-- Far enough from it that no rounding and no fee makes up for the difference. -/
def Job.Unborne (ws : List Wallet) : Job → Prop
  | funding d => d.amount ≤ 0 ∧
      ∃ w ∈ ws, w.id = d.walletId ∧ w.balance.toRat + 99 / 100 * d.amount ≤ -(1 / 100)
  | withdrawal d => ∃ w ∈ ws, w.id = d.walletId ∧ w.balance.toRat + 1 / 20000 ≤ d.amount
  | transfer d => ∃ w ∈ ws, w.id = d.senderWalletId ∧ w.balance.toRat + 1 / 20000 ≤ d.amount

/-- A job is committed only where the wallets bear it. -/
def CommitsBorne (s : State) (l : Step) : Prop :=
  NumberRun s l ∧ ∀ j, s.Commits l j → j.Borne s.shared.db.wallets.rows

theorem Leg.write_nonneg_iff (l : Leg) (w : Wallet) :
    0 ≤ (l.write w).balance.toRat ↔ -(1 / 20000) < w.balance.toRat + l.increment := by
  refine (Decimal.ofRat_nonneg_iff _).trans ?_
  constructor <;> intro h <;> norm_num at h ⊢ <;> linarith

/-- A debit that has passed its check is covered but for what is not stored. -/
theorem Tells.covers {b : Decimal 4} {a : ℚ} (h : Tells b a) (hb : 0 ≤ b.toRat)
    (checked : a ≤ toNumber b) : -(1 / 20000) < b.toRat + -a := by
  rcases h with small | bears
  · have := Doubles.toNumber_lt hb small
    linarith
  · linarith

theorem netAmount_borne {b a : ℚ} (number : IsNumber a) (hb : 0 ≤ b) (h : 0 ≤ b + a) :
    0 ≤ b + netAmount a := by
  rcases le_total 0 a with credit | debit
  · have := Doubles.netAmount_nonneg credit
    linarith
  · have := Doubles.le_netAmount number debit
    linarith

/-- A leg of a job that its wallets bear leaves them at zero or above. -/
theorem Book.Reads.nonneg {b : Book} {j : Job} {l : Leg} {r : Request} {w : Wallet}
    (h : b.Reads l w) (hr : r.Valid) (hj : r.job? = some j) (number : IsNumber j.amount)
    (hl : l ∈ j.legs) (hw : 0 ≤ w.balance.toRat) (borne : j.Borne b.wallets.rows) :
    0 ≤ (l.write w).balance.toRat := by
  have hmem := (Table.find?_eq_some.mp h.found).1
  rw [Leg.write_nonneg_iff]
  cases r <;> cases hj
  · cases List.mem_singleton.mp hl
    have := netAmount_borne number hw (borne w hmem h.id)
    exact lt_of_lt_of_le (by norm_num) this
  · cases List.mem_singleton.mp hl
    have checked := h.admits.2 rfl
    rw [neg_neg] at checked
    exact (borne w hmem h.id).covers hw checked
  · rcases List.mem_cons.mp hl with rfl | hl
    · have checked := h.admits.2 rfl
      rw [neg_neg] at checked
      exact (borne w hmem h.id).covers hw checked
    · cases List.mem_singleton.mp hl
      have : (0 : ℚ) < 1 / 100 := by norm_num
      have := hr.1
      linarith

/-- What is far enough from being borne ends below zero. -/
theorem Book.apply_unborne {b b' : Book} {j : Job} (h : b.apply j = some b')
    (unborne : j.Unborne b.wallets.rows) : ∃ w ∈ b'.wallets.rows, w.balance.toRat < 0 := by
  have low {l : Leg} {w : Wallet} (hl : l ∈ j.legs) (hw : w ∈ b.wallets.rows)
      (hid : w.id = l.walletId) (below : w.balance.toRat + l.increment ≤ -(1 / 20000)) :
      ∃ w ∈ b'.wallets.rows, w.balance.toRat < 0 := by
    obtain ⟨v, reads, hv⟩ := apply_write h hl
    cases Table.eq_of_key _ (Table.find?_eq_some.mp reads.found).1 hw (reads.id.trans hid.symm)
    refine ⟨_, (Table.find?_eq_some.mp hv).1, not_le.mp fun hn => ?_⟩
    exact absurd ((Leg.write_nonneg_iff _ _).mp hn) (not_lt.mpr below)
  cases j with
  | funding d =>
    obtain ⟨debit, w, hw, hid, far⟩ := unborne
    refine low (.head _) hw hid ?_
    have := Doubles.netAmount_le debit
    show w.balance.toRat + netAmount d.amount ≤ _
    linarith
  | withdrawal d =>
    obtain ⟨w, hw, hid, far⟩ := unborne
    refine low (.head _) hw hid ?_
    show w.balance.toRat + -d.amount ≤ _
    linarith
  | transfer d =>
    obtain ⟨w, hw, hid, far⟩ := unborne
    refine low (.head _) hw hid ?_
    show w.balance.toRat + -d.amount ≤ _
    linarith

/-- A deposit of `amount` into a new wallet, up to its commit. -/
def depositInto (amount : ℚ) : List Step :=
  let deposit : FundWalletDto := ⟨1, 1, "USD", amount, "a"⟩
  .start (.http 1 (.createWallet ⟨1, "USD", "w"⟩)) :: calls 0 9 ++
  .start (.http 1 (.fundWallet deposit)) :: calls 1 4 ++
  .start (.delivery ⟨.walletFunding, .job (.funding deposit), none, 1⟩) :: calls 2 9

/-- What a step commits, as the journal shows it. -/
def commitsBorne (s : State) (l : Step) : Bool :=
  l.ofWallets && decide l.Numeric && match step s l with
    | none => true
    | some t => (t.shared.journal.drop s.shared.journal.length).all fun e => match e.event with
      | .committed j => decide (j.Borne s.shared.db.wallets.rows)
      | _ => true

theorem commitsBorne_of_test {s : State} {l : Step} (h : commitsBorne s l = true) : CommitsBorne s l := by
  simp only [commitsBorne, Bool.and_eq_true, decide_eq_true_eq] at h
  refine ⟨h.1, fun j hc => ?_⟩
  obtain ⟨t, e, hs, hj, he⟩ := hc
  have test := h.2
  rw [hs] at test
  simp only [hj, List.drop_left, List.all_cons, he, decide_eq_true_eq, Bool.and_eq_true] at test
  exact test.1

/-- Ten dollars come in, three go out through a deposit and two through a withdrawal. -/
def depositsAndWithdrawal : List Step :=
  let deposit : FundWalletDto := ⟨1, 1, "USD", 10, "a"⟩
  let taken : FundWalletDto := ⟨1, 1, "USD", -3, "b"⟩
  let withdrawal : WithdrawWalletDto := ⟨1, 1, 2, "USD", "c"⟩
  .start (.http 1 (.createWallet ⟨1, "USD", "w"⟩)) :: calls 0 9 ++
  .start (.http 1 (.fundWallet deposit)) :: calls 1 4 ++
  .start (.delivery ⟨.walletFunding, .job (.funding deposit), none, 1⟩) :: calls 2 13 ++
  .start (.http 1 (.fundWallet taken)) :: calls 3 4 ++
  .start (.delivery ⟨.walletFunding, .job (.funding taken), none, 3⟩) :: calls 4 4 ++
  .run 4 (.ok { pick := 1 }) :: calls 4 8 ++
  .start (.http 1 (.withdrawFromWallet withdrawal)) :: calls 5 4 ++
  .start (.delivery ⟨.walletWithdrawal, .job (.withdrawal withdrawal), none, 5⟩) :: calls 6 3 ++
  .run 6 (.ok { pick := 2 }) :: calls 6 4

end

/-! ## Transfers -/

/-- Transfers conserve money exactly if the amount is not halfway between two
numbers of four digits or the credit stays below zero; no other step but a
commit changes a balance, and no transfer from a wallet to itself commits. -/
theorem transfers_conserve_iff {s t u : State} {l : Step} (hq : Quiet s) (h : Reach WalletRun s t)
    (hs : step t l = some u) :
    (∀ d, t.Commits l (.transfer d) → d.senderWalletId ≠ d.recipientWalletId ∧
      ∃ sender recipient sender' recipient',
        t.shared.db.wallets.find? d.senderWalletId = some sender ∧
        t.shared.db.wallets.find? d.recipientWalletId = some recipient ∧
        u.shared.db.wallets.find? d.senderWalletId = some sender' ∧
        u.shared.db.wallets.find? d.recipientWalletId = some recipient' ∧
        ((sender.balance.units - sender'.balance.units =
            recipient'.balance.units - recipient.balance.units ∧
          ∀ c, u.shared.book.total c = t.shared.book.total c) ↔
        ¬ d.Halfway ∨ recipient.balance.toRat + d.amount < 0)) ∧
    ((∀ j, ¬ t.Commits l j) → ∀ w ∈ t.shared.db.wallets.rows, w ∈ u.shared.db.wallets.rows) := by
  have replays := h.replays (fun _ _ => id) hq hs
  refine ⟨fun d hc => ?_, replays.rows_of_not_commits hs⟩
  have applied := hc.applies hs replays
  obtain ⟨sender, recipient, hsender, hrecipient, hne, hb⟩ := Book.apply_transfer applied
  have debit : d.debit ∈ (Job.transfer d).legs := .head _
  have credit : d.credit ∈ (Job.transfer d).legs := .tail _ (.head _)
  obtain ⟨v, hv, fs⟩ := Book.apply_write applied debit
  obtain ⟨v', hv', fr⟩ := Book.apply_write applied credit
  cases hv.found.symm.trans hsender.found
  cases hv'.found.symm.trans hrecipient.found
  exact ⟨hne, sender, recipient, d.debit.write sender, d.credit.write recipient, hsender.found,
    hrecipient.found, fs, fr, Book.transfer_conserves_iff hsender hrecipient hne hb⟩

theorem transfers_conserve_iff_three : ∃ t u d, runSteps (transferPrepared 3) State.empty = some t ∧
    step t (.run 5 (.ok {})) = some u ∧ t.Commits (.run 5 (.ok {})) (.transfer d) ∧
    u.shared.db.wallets.rows.map (fun w => w.balance.units) = [69500, 30000] ∧
    ∀ c, u.shared.book.total c = t.shared.book.total c := by
  let d : TransferWalletDto := ⟨1, 1, 2, 2, 3, "USD", "b"⟩
  have h : ((runSteps (transferPrepared 3) State.empty).bind fun t =>
      (step t (.run 5 (.ok {}))).map fun u => decide (
        u.shared.db.wallets.rows.map (fun w => w.balance.units) = [69500, 30000] ∧
        u.shared.journal.map Entry.event =
          t.shared.journal.map Entry.event ++ [.committed (.transfer d)])) = some true := by
    decide +kernel
  obtain ⟨t, u, ht, hu, hp⟩ := runSteps_step h
  obtain ⟨hafter, hj⟩ := of_decide_eq_true hp
  have reach : Reach WalletRun State.empty t := reach_of_runSteps rfl ht
  have commits := (reach.replays (fun _ _ => id) State.empty_quiet hu).commits hu hj
  have exact : ¬ d.Halfway := by decide +kernel
  obtain ⟨-, sender, recipient, sender', recipient', -, -, -, -, conserved⟩ :=
    (transfers_conserve_iff State.empty_quiet reach hu).1 d commits
  exact ⟨t, u, d, ht, hu, commits, hafter, (conserved.mpr (.inl exact)).2⟩

/-- A transfer of 0.01005 takes one hundred units and gives one hundred and one. -/
theorem halfway_transfer_creates_money : ∃ t u d, Reach WalletRun State.empty t ∧
    step t (.run 5 (.ok {})) = some u ∧ t.Commits (.run 5 (.ok {})) (.transfer d) ∧ d.Valid ∧
    t.shared.db.wallets.rows.map (fun w => w.balance.units) = [99500, 0] ∧
    u.shared.db.wallets.rows.map (fun w => w.balance.units) = [99400, 101] ∧
    t.shared.book.total "USD" < u.shared.book.total "USD" := by
  let d : TransferWalletDto := ⟨1, 1, 2, 2, 0.01005, "USD", "b"⟩
  have h : ((runSteps (transferPrepared 0.01005) State.empty).bind fun t =>
      (step t (.run 5 (.ok {}))).map fun u => decide (
        t.shared.db.wallets.rows.map (fun w => w.balance.units) = [99500, 0] ∧
        u.shared.db.wallets.rows.map (fun w => w.balance.units) = [99400, 101] ∧
        t.shared.book.total "USD" < u.shared.book.total "USD" ∧
        u.shared.journal.map Entry.event =
          t.shared.journal.map Entry.event ++ [.committed (.transfer d)])) = some true := by
    decide +kernel
  obtain ⟨t, u, ht, hu, hp⟩ := runSteps_step h
  obtain ⟨hbefore, hafter, htotal, hj⟩ := of_decide_eq_true hp
  have reach : Reach WalletRun State.empty t := reach_of_runSteps rfl ht
  have replays := reach.replays (fun _ _ => id) State.empty_quiet hu
  exact ⟨t, u, d, reach, hu, replays.commits hu hj, by decide +kernel, hbefore, hafter, htotal⟩

/-! ## Reconciliation -/

/-- From new wallets and an empty ledger on, a wallet has one ledger row for each
version, and its balance is off their signed sum by 0.0001 for each at most. -/
theorem ledger_reconciles {s t : State} (hq : Quiet s)
    (hw : ∀ w ∈ s.shared.db.wallets.rows, w.balance = 0 ∧ w.version = 0)
    (hl : s.shared.db.transactions.rows = []) (h : Reach WalletRun s t) :
    ∀ w ∈ t.shared.db.wallets.rows, w.version = (t.shared.book.rowsOf w.id).length ∧
      |w.balance.toRat - ((t.shared.book.rowsOf w.id).map Transaction.signed).sum| ≤
        1 / 10000 * w.version := by
  have reconciles : t.shared.book.Reconciles := by
    induction h with
    | refl =>
      have none (id) : s.shared.book.rowsOf id = [] := by simp [Book.rowsOf, Shared.book, hl]
      refine ⟨fun w hmem => ?_, fun w hmem => ?_, fun x hx => ?_⟩
      · rw [none, (hw w hmem).2]; rfl
      · rw [none, (hw w hmem).1, (hw w hmem).2]; norm_num [Decimal.toRat]
      · rw [show s.shared.book.transactions.rows = [] from hl] at hx; cases hx
    | @tail t u l h _ hs ih =>
      rcases Reach.replays (fun _ _ => id) hq h hs with ⟨-, hb⟩ | ⟨e, hm⟩
      · rw [hb]; exact ih
      have hr := hm.replay
      cases he : e.event with
      | walletCreated w =>
        rw [he] at hr
        simp only [Book.replay, Option.map_eq_some_iff] at hr
        obtain ⟨ws, ins, hb⟩ := hr
        have new := hm.new w he
        exact hb ▸ ih.addWallet new.balance new.version ins
      | committed j => rw [he] at hr; exact ih.apply hr
      | _ => rw [he] at hr; exact Option.some.inj hr ▸ ih
  exact fun w hmem => ⟨reconciles.version w hmem, reconciles.balance w hmem⟩

theorem ledger_reconciles_transfer : ∃ t u, runSteps (transferPrepared 3) State.empty = some t ∧
    step t (.run 5 (.ok {})) = some u ∧ ∀ w ∈ u.shared.db.wallets.rows,
      w.version = (u.shared.book.rowsOf w.id).length := by
  obtain ⟨t, u, ht, hu, -⟩ := transferPrepared_runs
  have last : WalletRun t (.run 5 (.ok {})) := rfl
  have reach : Reach WalletRun State.empty u := (reach_of_runSteps rfl ht).tail last hu
  exact ⟨t, u, ht, hu, fun w hw => (ledger_reconciles State.empty_quiet nofun rfl reach w hw).1⟩

end Pactic
