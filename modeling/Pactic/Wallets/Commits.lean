import Pactic.Protocol.Books
import Pactic.Protocol.Requests

/-! # Commits

A txId moves money once, whatever is delivered how often, and the committed
jobs are the ones an atomic book would have applied in the order of their
commits. -/
namespace Pactic
open Keyed Resumption

theorem List.countP_le_one_of_nodup {α β : Type} [DecidableEq β] {f : α → Option β} {l : List α}
    (h : (l.filterMap f).Nodup) (b : β) : l.countP (fun a => f a = some b) ≤ 1 := by
  have hc := List.nodup_iff_count_le_one.mp h b
  rw [List.count_filterMap] at hc
  exact (List.countP_congr fun a _ => by simp).trans_le hc

/-- At most one commit carries a given txId, and only commits change the wallets
there are. -/
theorem money_moves_once {s : State} (hq : Quiet s) :
    (∀ t, Reach WalletRun s t → ∀ txId,
      t.shared.journal.countP (fun e => e.event.committedId? = some txId) ≤ 1) ∧
    ∀ t l u, Reach WalletRun s t → step t l = some u → (∀ j, ¬ t.Commits l j) →
      ∀ w ∈ t.shared.db.wallets.rows, w ∈ u.shared.db.wallets.rows := by
  refine ⟨fun t h txId => ?_, fun t l u h hs hn => ?_⟩
  · obtain ⟨g, -, owned⟩ := ((owned_keeps WalletRun _).stable).invariant
      (service_obeys fun _ _ => id) hq.tracks hq.owned h
    exact List.countP_le_one_of_nodup owned.nodup txId
  · exact (h.replays (fun _ _ => id) hq hs).rows_of_not_commits hs hn

/-- A deposit whose message is delivered again while the first delivery runs. -/
def depositDeliveredTwice : List Step :=
  let m : Message := ⟨.walletFunding, .job (.funding ⟨1, 1, "USD", 10, "a"⟩), none, 1⟩
  .start (.http 1 (.createWallet ⟨1, "USD", "w"⟩)) :: calls 0 9 ++
  .start (.http 1 (.fundWallet ⟨1, 1, "USD", 10, "a"⟩)) :: calls 1 4 ++
  [.start (.delivery m), .env (.redeliver m), .start (.delivery m)] ++
  calls 2 1 ++ calls 3 1 ++ calls 2 12 ++ calls 3 1

theorem depositDeliveredTwice_runs : ∃ t, runSteps depositDeliveredTwice State.empty = some t ∧
    (t.shared.journal.length == 4) = true := runSteps_any (by decide +kernel)

theorem money_moves_once_redelivered : ∃ t, runSteps depositDeliveredTwice State.empty = some t ∧
    t.shared.journal.countP (fun e => e.event.committedId? = some "a") ≤ 1 := by
  obtain ⟨t, ht, -⟩ := depositDeliveredTwice_runs
  exact ⟨t, ht, (money_moves_once State.empty_quiet).1 t (reach_of_runSteps rfl ht) "a"⟩

/-- User 1 deposits ten dollars and sends `amount` to user 2; the transfer has read
the latest version of the sender's wallet and is about to commit. -/
def transferPrepared (amount : ℚ) : List Step :=
  let deposit : FundWalletDto := ⟨1, 1, "USD", 10, "a"⟩
  let payment : TransferWalletDto := ⟨1, 1, 2, 2, amount, "USD", "b"⟩
  .start (.http 1 (.createWallet ⟨1, "USD", "w1"⟩)) :: calls 0 9 ++
  .start (.http 2 (.createWallet ⟨2, "USD", "w2"⟩)) :: calls 1 9 ++
  .start (.http 1 (.fundWallet deposit)) :: calls 2 4 ++
  .start (.delivery ⟨.walletFunding, .job (.funding deposit), none, 2⟩) :: calls 3 13 ++
  .start (.http 1 (.transferFunds payment)) :: calls 4 4 ++
  .start (.delivery ⟨.walletTransfer, .job (.transfer payment), none, 4⟩) :: calls 5 3 ++
  .run 5 (.ok { pick := 1 }) :: calls 5 5

theorem transferPrepared_runs : ∃ t u, runSteps (transferPrepared 3) State.empty = some t ∧
    step t (.run 5 (.ok {})) = some u ∧
    (u.shared.db.wallets.rows.map (fun w => w.balance.units) == [69500, 30000]) = true := by
  have h : ((runSteps (transferPrepared 3) State.empty).bind fun t =>
      (step t (.run 5 (.ok {}))).map fun u =>
        u.shared.db.wallets.rows.map (fun w => w.balance.units) == [69500, 30000]) =
      some true := by decide +kernel
  exact runSteps_step h

/-- The journal replayed on the first book gives the last one, and a job is
committed onto wallets that pass all its checks at that moment. -/
theorem commits_serialize {s t : State} (hq : Quiet s) (h : Reach WalletRun s t) :
    (t.shared.journal.map Entry.event).foldlM Book.replay s.shared.book = some t.shared.book ∧
    ∀ l u j, step t l = some u → t.Commits l j → t.shared.book.apply j = some u.shared.book ∧
      ∀ leg ∈ j.legs, ∃ w, t.shared.db.wallets.find? leg.walletId = some w ∧ leg.Admits w := by
  refine ⟨h.explains (fun _ _ => id) hq, fun l u j hs hc => ?_⟩
  have applied := hc.applies hs (h.replays (fun _ _ => id) hq hs)
  refine ⟨applied, fun leg hleg => ?_⟩
  obtain ⟨w, hr, -⟩ := Book.apply_write applied hleg
  exact ⟨w, hr.found, hr.admits⟩

theorem commits_serialize_redelivered : ∃ t, runSteps depositDeliveredTwice State.empty = some t ∧
    (t.shared.journal.map Entry.event).foldlM Book.replay State.empty.shared.book =
      some t.shared.book := by
  obtain ⟨t, ht, -⟩ := depositDeliveredTwice_runs
  exact ⟨t, ht, (commits_serialize State.empty_quiet (reach_of_runSteps rfl ht)).1⟩

end Pactic
