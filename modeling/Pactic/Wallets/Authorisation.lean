import Pactic.Protocol.Messages
import Pactic.Wallets.Commits

/-! # Who may move whose money

The controller binds a body to the token, the processor binds the message to
the wallet. Between the two lie the queues, through which every job can be
traced back to its request. -/
namespace Pactic
open FixedPoint Keyed Resumption

/-- A valid request names an amount that only a deposit may take below zero. -/
theorem Request.Valid.increment {r : Request} {j : Job} {l : Leg} (hr : r.Valid)
    (hj : r.job? = some j) (hl : l ∈ j.legs) : l.userId = j.payer ∨ 0 ≤ l.increment := by
  cases r <;> cases hj
  · cases List.mem_singleton.mp hl; exact .inl rfl
  · cases List.mem_singleton.mp hl; exact .inl rfl
  · rcases List.mem_cons.mp hl with rfl | hl
    · exact .inl rfl
    · cases List.mem_singleton.mp hl
      exact .inr (le_trans (by norm_num) hr.1)

theorem Job.leg_currency {j : Job} {l : Leg} (hl : l ∈ j.legs) : l.currency = j.currency := by
  cases j with
  | transfer d =>
    rcases List.mem_cons.mp hl with rfl | hl
    · rfl
    · cases List.mem_singleton.mp hl; rfl
  | _ => cases List.mem_singleton.mp hl; rfl

/-- A leg that lowers a balance is the payer's, in the currency of the job. -/
theorem Book.Reads.debit {b : Book} {j : Job} {l : Leg} {r : Request} {w : Wallet}
    (h : b.Reads l w) (hr : r.Valid) (hj : r.job? = some j) (hl : l ∈ j.legs)
    (hlt : (l.write w).balance.toRat < w.balance.toRat) :
    w.userId = j.payer ∧ w.currency = j.currency := by
  obtain ⟨⟨hu, hc, -⟩, -⟩ := h.admits
  rcases hr.increment hj hl with hp | hpos
  · exact ⟨hu.trans hp, hc.trans (Job.leg_currency hl)⟩
  · exact absurd hlt (not_lt.mpr (Decimal.le_ofRat_add w.balance hpos))

/-- Every debit stems from a request sent with the owner's token and naming the
currency of the wallet; a transfer credits the wallet of the recipient its
request names, in the same currency, with one cent at least. -/
theorem debits_are_authorised {s t u : State} {l : Step} (hq : Quiet s)
    (hb : s.shared.broker.Idle) (h : Reach WalletRun s t)
    (hs : step t l = some u) :
    (∀ w ∈ t.shared.db.wallets.rows, ∀ w' ∈ u.shared.db.wallets.rows, w'.id = w.id →
      w'.balance.toRat < w.balance.toRat →
      ∃ j r, t.Commits l j ∧ r.job? = some j ∧ t.Sent w.userId r ∧ w.currency = j.currency) ∧
    ∀ d, t.Commits l (.transfer d) → t.Sent d.senderId (.transferFunds d) ∧ 1 / 100 ≤ d.amount ∧
      ∃ sender ∈ t.shared.db.wallets.rows, ∃ recipient ∈ t.shared.db.wallets.rows,
        sender.id = d.senderWalletId ∧ recipient.id = d.recipientWalletId ∧
        recipient.userId = d.recipientId ∧ recipient.currency = sender.currency := by
  have stable := (sound_keeps WalletRun fun _ _ => True).stable.and
    (traced_stable (fun _ => True) WalletRun fun sh g => True ∧ Sound sh g)
  obtain ⟨g, ht, sound, traced⟩ := stable.invariant (service_obeys fun _ _ => id) hq.tracks
    ⟨hq.sound, traced_noThreads hb.lacks⟩ h
  have replays := step_replays ht sound hs
  -- a committed job runs in a delivery that was asked for
  have source {e : Entry} {j} (hm : e.Moves t u) (he : e.event = .committed j) :
      ∃ r, r.Valid ∧ r.job? = some j ∧ t.Sent j.payer r := by
    obtain ⟨p, hp⟩ := hm.thread
    obtain ⟨q, hg, -⟩ := ht.obeys _ _ hp
    exact (traced.thread hg (hm.job j he) trivial).sent ht
  constructor
  · intro w hw w' hw' hid hlt
    rcases replays.wallet hw hw' hid with rfl | ⟨e, j, leg, hm, he, hleg, reads, rfl⟩
    · exact absurd hlt (lt_irrefl _)
    · obtain ⟨r, hr, hj, hsent⟩ := source hm he
      obtain ⟨hpay, hcur⟩ := reads.debit hr hj hleg hlt
      exact ⟨j, r, hm.commits hs he, hj, hpay ▸ hsent, hcur⟩
  · intro d hc
    obtain ⟨e, hm, he⟩ := hc.moves hs replays
    obtain ⟨r, hr, hjob, hsent⟩ := source hm he
    cases r <;> cases hjob
    refine ⟨hsent, hr.1, ?_⟩
    obtain ⟨-, ws, reads, -⟩ := Book.apply_eq_some.mp (he ▸ hm.replay)
    obtain ⟨sender, hsender, -⟩ := Book.reads_of_mem reads (List.mem_cons_self)
    obtain ⟨recipient, hrecipient, -⟩ := Book.reads_of_mem reads (.tail _ (.head _))
    obtain ⟨-, hc, -⟩ := hsender.admits.1
    obtain ⟨hu, hc', -⟩ := hrecipient.admits.1
    exact ⟨sender, (Table.find?_eq_some.mp hsender.found).1, recipient,
      (Table.find?_eq_some.mp hrecipient.found).1, hsender.id, hrecipient.id, hu, hc'.trans hc.symm⟩

theorem debits_are_authorised_transfer : ∃ t u, runSteps (transferPrepared 3) State.empty = some t ∧
    step t (.run 5 (.ok {})) = some u ∧
    ∀ w ∈ t.shared.db.wallets.rows, ∀ w' ∈ u.shared.db.wallets.rows, w'.id = w.id →
      w'.balance.toRat < w.balance.toRat →
      ∃ j r, t.Commits (.run 5 (.ok {})) j ∧ r.job? = some j ∧ t.Sent w.userId r ∧
        w.currency = j.currency := by
  obtain ⟨t, u, ht, hu, -⟩ := transferPrepared_runs
  exact ⟨t, u, ht, hu, (debits_are_authorised State.empty_quiet State.empty_idle
    (reach_of_runSteps rfl ht) hu).1⟩

end Pactic
