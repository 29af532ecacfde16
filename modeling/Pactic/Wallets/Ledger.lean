import Pactic.Book.Ledger
import Pactic.Wallets.Commits

/-! # The ledger over whole runs

What every event keeps of the book, every run of the service keeps of its
database: wallets and ledger only grow, transfers stand in the ledger twice, and
the money of a currency is what the committed jobs have brought in. -/
namespace Pactic
open Keyed Resumption

def Event.job? : Event → Option Job
  | committed j => some j
  | _ => none

/-- The committed jobs, in the order of their commits. -/
def Shared.committedJobs (sh : Shared) : List Job := sh.journal.filterMap fun e => e.event.job?

/-- The rows a job leaves in the ledger. -/
def Job.stored (j : Job) : List Transaction := j.rows.map TransactionData.store

theorem Event.job?_eq_none {e : Event} (h : ∀ j, e ≠ .committed j) : e.job? = none := by
  cases e with
  | committed j => exact absurd rfl (h j)
  | _ => rfl

section
variable {C : State → Step → Prop} {s t u : State} {l : Step} {c : String}

/-- What a new wallet and a job that applies keep of the book, a run keeps. -/
theorem Reach.keeps_book {I : Book → Prop} (hC : ∀ s l, C s l → WalletRun s l) (hq : Quiet s)
    (keep : ∀ b b' e, (∀ w, e = .walletCreated w → w.New) → b.replay e = some b' → I b → I b')
    (h₀ : I s.shared.book) (h : Reach C s t) : I t.shared.book := by
  induction h with
  | refl => exact h₀
  | tail hr _ hs ih =>
    rcases Reach.replays hC hq hr hs with ⟨-, hb⟩ | ⟨e, hm⟩
    · exact hb ▸ ih
    · exact keep _ _ _ hm.new hm.replay ih

theorem Entry.Moves.committedJobs {e : Entry} (h : e.Moves s t) :
    t.shared.committedJobs = s.shared.committedJobs ++ e.event.job?.toList := by
  cases hj : e.event.job? <;> simp [Shared.committedJobs, h.journal, List.filterMap_append, hj]

/-- The books of one step: the wallets are later rows, and the ledger gains the
rows of the job that is committed, if one is. -/
structure State.Grows (s t : State) : Prop where
  later : ∀ w ∈ s.shared.db.wallets.rows, ∃ w' ∈ t.shared.db.wallets.rows, w.Later w'
  logged : ∃ jobs, t.shared.committedJobs = s.shared.committedJobs ++ jobs ∧
    t.shared.db.transactions.rows = s.shared.db.transactions.rows ++ jobs.flatMap Job.stored

theorem State.Grows.refl : s.Grows s where
  later w hw := ⟨w, hw, .rfl⟩
  logged := ⟨[], by simp⟩

theorem State.Grows.trans (h : s.Grows t) (h' : t.Grows u) : s.Grows u where
  later w hw := by
    obtain ⟨v, hv, first⟩ := h.later w hw
    obtain ⟨x, hx, second⟩ := h'.later v hv
    exact ⟨x, hx, first.trans second⟩
  logged := by
    obtain ⟨js, hj, hrows⟩ := h.logged
    obtain ⟨js', hj', hrows'⟩ := h'.logged
    exact ⟨js ++ js', by rw [hj', hj, List.append_assoc],
      by rw [hrows', hrows, List.append_assoc, List.flatMap_append]⟩

theorem State.Replays.grows (h : s.Replays t) : s.Grows t := by
  rcases h with ⟨hj, hb⟩ | ⟨e, hm⟩
  · have wallets : t.shared.db.wallets = s.shared.db.wallets := congrArg Book.wallets hb
    have ledger : t.shared.db.transactions = s.shared.db.transactions :=
      congrArg Book.transactions hb
    exact ⟨fun w hw => ⟨w, wallets ▸ hw, .rfl⟩, [], by simp [Shared.committedJobs, hj], by simp [ledger]⟩
  refine ⟨fun w hw => Book.replay_later hm.replay hw, e.event.job?.toList, hm.committedJobs, ?_⟩
  by_cases he : ∃ j, e.event = .committed j
  · obtain ⟨j, he⟩ := he
    have applied := hm.replay
    rw [he] at applied ⊢
    obtain ⟨-, -, -, -, hledger⟩ := Book.apply_eq_some.mp applied
    have rows := Table.rows_of_foldlM_insert? hledger
    simpa [Event.job?, Job.stored, Shared.book] using rows
  · have none : ∀ j, e.event ≠ .committed j := fun j hj => he ⟨j, hj⟩
    have same : t.shared.db.transactions = s.shared.db.transactions :=
      Book.replay_transactions hm.replay none
    rw [Event.job?_eq_none none, same]
    simp

/-- From any state of a run on, no wallet is lost, renumbered, handed to another
owner or turned back, a version number stands for one row, and the ledger only
gains the rows of the jobs committed since. -/
theorem books_only_grow (hq : Quiet s) (h : Reach WalletRun s t) (h' : Reach WalletRun t u) :
    t.Grows u := by
  induction h' with
  | refl => exact .refl
  | tail hr _ hs ih =>
    exact ih.trans (Reach.replays (fun _ _ => id) hq (h.trans hr) hs).grows

theorem books_only_grow_transfer : ∃ t u, runSteps (transferPrepared 3) State.empty = some t ∧
    step t (.run 5 (.ok {})) = some u ∧ t.Grows u := by
  obtain ⟨t, u, ht, hu, -⟩ := transferPrepared_runs
  have last : WalletRun t (.run 5 (.ok {})) := rfl
  exact ⟨t, u, ht, hu,
    books_only_grow State.empty_quiet (reach_of_runSteps rfl ht) (Machine.Reach.refl.tail last hu)⟩

/-- In a ledger that started so, every row belongs to its wallet's owner, every
transfer has its two sides, on wallets of one currency, and they all cancel. -/
theorem transfers_are_entered_twice (hq : Quiet s) (h₀ : s.shared.book.DoubleEntry)
    (h : Reach WalletRun s t) : t.shared.book.DoubleEntry :=
  Reach.keeps_book (fun _ _ => id) hq (fun _ _ _ _ hr hI => hI.replay hr) h₀ h

theorem transfers_are_entered_twice_transfer : ∃ t u,
    runSteps (transferPrepared 3) State.empty = some t ∧ step t (.run 5 (.ok {})) = some u ∧
    u.shared.book.DoubleEntry := by
  obtain ⟨t, u, ht, hu, -⟩ := transferPrepared_runs
  have last : WalletRun t (.run 5 (.ok {})) := rfl
  have reach : Reach WalletRun State.empty u := (reach_of_runSteps rfl ht).tail last hu
  have empty : State.empty.shared.book.DoubleEntry := .of_empty rfl
  exact ⟨t, u, ht, hu, transfers_are_entered_twice State.empty_quiet empty reach⟩

/-- A new wallet brings no money. -/
theorem Book.total_addWallet {b : Book} {w : Wallet} {ws} (new : w.New)
    (ins : b.wallets.insert? w = some ws) : ({ b with wallets := ws } : Book).total c = b.total c := by
  simp [total, (Table.insert?_eq_some.mp ins).2, new.balance]

/-- What an event may do to the total of a currency. -/
theorem Book.total_replay (c : String) {b b' : Book} {e : Event} (new : ∀ w, e = .walletCreated w → w.New)
    (h : b.replay e = some b') : (∃ j, e = .committed j ∧ j.Accounts c (b'.total c - b.total c)) ∨
      e.job? = none ∧ b'.total c = b.total c := by
  cases e with
  | committed j => exact .inl ⟨j, rfl, total_apply h c⟩
  | walletCreated w =>
    simp only [replay, Option.map_eq_some_iff] at h
    obtain ⟨ws, ins, rfl⟩ := h
    exact .inr ⟨rfl, total_addWallet (new w rfl) ins⟩
  | _ => cases h; exact .inr ⟨rfl, rfl⟩

/-- What is in all wallets of a currency, in units of the last digit, has grown
by the net deposits less the withdrawals committed in it, but for half a unit
for each of these and one for each transfer. -/
theorem money_is_accounted_for (hq : Quiet s) (h : Reach WalletRun s t) (c : String) :
    |((t.shared.book.total c - s.shared.book.total c : ℤ) : ℚ) -
        ((t.shared.committedJobs.filter fun j => j.currency = c).map Job.intake).sum * 10 ^ 4| ≤
      ((t.shared.committedJobs.filter fun j => j.currency = c).map Job.slack).sum := by
  induction h with
  | refl => simp [Shared.committedJobs, hq.journal]
  | @tail t u l hr _ hs ih =>
    rcases Reach.replays (fun _ _ => id) hq hr hs with ⟨hj, hb⟩ | ⟨e, hm⟩
    · have same : u.shared.committedJobs = t.shared.committedJobs := by
        simp only [Shared.committedJobs, hj]
      rw [same, hb]
      exact ih
    have jobs := hm.committedJobs
    rcases Book.total_replay c hm.new hm.replay with ⟨j, he, accounts⟩ | ⟨none, same⟩
    · have one : e.event.job?.toList = [j] := by rw [he]; rfl
      rw [jobs, one]
      simp only [List.filter_append, List.map_append, List.sum_append]
      rw [Job.Accounts] at accounts
      by_cases hc : j.currency = c
      · simp only [hc, if_true, List.filter_cons, decide_true, List.filter_nil, List.map_cons,
          List.map_nil, List.sum_cons, List.sum_nil, add_zero] at accounts ⊢
        rw [abs_le] at ih accounts ⊢
        push_cast at ih accounts ⊢
        constructor <;> linarith
      · simp only [hc, if_false, List.filter_cons, decide_false, List.filter_nil, List.map_nil,
          List.sum_nil, add_zero, Bool.false_eq_true] at accounts ⊢
        rw [abs_le] at ih accounts ⊢
        push_cast at ih accounts ⊢
        constructor <;> linarith
    · rw [jobs, none, same]
      simpa using ih

theorem money_is_accounted_for_transfer : ∃ t u,
    runSteps (transferPrepared 3) State.empty = some t ∧ step t (.run 5 (.ok {})) = some u ∧
    |((u.shared.book.total "USD" - State.empty.shared.book.total "USD" : ℤ) : ℚ) -
        ((u.shared.committedJobs.filter fun j => j.currency = "USD").map Job.intake).sum * 10 ^ 4| ≤
      ((u.shared.committedJobs.filter fun j => j.currency = "USD").map Job.slack).sum := by
  obtain ⟨t, u, ht, hu, -⟩ := transferPrepared_runs
  have last : WalletRun t (.run 5 (.ok {})) := rfl
  have reach : Reach WalletRun State.empty u := (reach_of_runSteps rfl ht).tail last hu
  exact ⟨t, u, ht, hu, money_is_accounted_for State.empty_quiet reach "USD"⟩

end
end Pactic
