import Pactic.Model.Transactions

/-! # Page after page

Every page is read by a query of its own, and the time is all the queries sort
by. Rows of the same time on both sides of a page boundary may be shown twice
or not at all. -/
namespace Pactic
open Keyed Paging TransactionsService

section
variable {ρ : Type} {key : ρ → Nat} {rows : List ρ}

/-- Read from the first page to the last, the rows come once each, newest first,
and nothing comes after them. -/
structure Partition (key : ρ → Nat) (rows : List ρ) (pages : Nat → Page ρ) : Prop where
  once : ((List.range (pages 1).totalPages).flatMap fun k => (pages (k + 1)).items).Perm rows
  sorted : ((List.range (pages 1).totalPages).flatMap fun k => (pages (k + 1)).items).Pairwise
    fun x y => key y ≤ key x
  after : ∀ p, (pages 1).totalPages < p → (pages p).items = []

/-- The pages partition the rows, whatever orders the queries choose. -/
def PagesPartition (query : Arrangement key rows → Nat → Page ρ) : Prop :=
  ∀ found : Nat → Arrangement key rows, Partition key rows fun p => query (found p) p

theorem le_totalPages (found : Arrangement key rows) (page : Nat) :
    rows.length ≤ (paginate found page).totalPages * 10 := by
  have h := Nat.le_ceil (rows.length / (10 : Nat) : ℚ)
  rw [div_le_iff₀ (by norm_num)] at h
  exact_mod_cast h

theorem paginate_partition_iff (hn : rows.Nodup) :
    PagesPartition (fun found : Arrangement key rows => paginate found) ↔
      ∀ k, Cut key rows (k * 10) := by
  constructor
  · intro h k
    refine cut_of_pages_perm hn (le_totalPages (Arrangement.sort key rows) 1) (fun as => ?_) k
    exact (h fun p => as (p - 1)).once
  · intro h found
    refine ⟨?_, pages_sorted h _, fun p hp => Arrangement.slice_eq_nil ?_⟩
    · have perm : (pages 10 (fun k => found (k + 1)) (paginate (found 1) 1).totalPages).Perm _ :=
        pages_perm h (found 1) _
      rw [List.take_of_length_le ((found 1).length.trans_le (le_totalPages (found 1) 1))] at perm
      exact perm.trans (found 1).perm
    · have last := le_totalPages (found 1) 1
      have hp : (paginate (found 1) 1).totalPages ≤ p - 1 := by
        have hp : (paginate (found 1) 1).totalPages < p := hp
        omega
      exact last.trans (Nat.mul_le_mul_right _ hp)

end

theorem nodup_filter {ρ : Type} {key : ρ → Int} (t : Table key) (P : ρ → Bool) :
    (t.rows.filter P).Nodup := t.unique.of_map.filter P

/-- The pages of a user's rows have each of them once, newest first, whatever
orders the queries choose, exactly if every page boundary is a cut: it has rows
of different times on its two sides. -/
theorem pages_partition_iff (userId : Int) :
    (∀ transactions, PagesPartition (getTransactionsForUser transactions userId · ·) ↔
      ∀ k, Cut TransactionRow.createdAt (transactionsOf userId transactions) (k * 10)) ∧
    (∀ notifications, PagesPartition (getUserNotifications notifications userId · ·) ↔
      ∀ k, Cut NotificationRow.createdAt (notificationsOf userId notifications) (k * 10)) ∧
    ∀ logs, PagesPartition (getUserLoginLogs logs userId · ·) ↔
      ∀ k, Cut LoginLogRow.loggedInAt (loginLogsOf userId logs) (k * 10) :=
  ⟨fun t => paginate_partition_iff (nodup_filter t _),
    fun t => paginate_partition_iff (nodup_filter t _),
    fun t => paginate_partition_iff (nodup_filter t _)⟩

/-- Eleven deposits of user 1, all made at the same time. -/
def depositsAtOneTime : Table TransactionRow.id where
  rows := (List.range 11).map fun n =>
    { walletId := 1, userId := 1, type := .deposit, amount := ⟨99500⟩, fee := ⟨500⟩
      status := .success, reference := toString n, metadata := none, id := n, createdAt := 0 }
  unique := by decide

/-- The first page is read in one order, every other page in the other. -/
def readBothWays (p : Nat) :
    Arrangement TransactionRow.createdAt (transactionsOf 1 depositsAtOneTime) :=
  if p = 1 then ⟨_, .refl _, by decide⟩
  else ⟨(transactionsOf 1 depositsAtOneTime).reverse, List.reverse_perm _, by decide⟩

/-- The second page shows the first row again. -/
theorem page_shows_row_again : ∃ transactions,
    ¬ PagesPartition (getTransactionsForUser transactions 1 · ·) := by
  refine ⟨depositsAtOneTime, fun h => ?_⟩
  have nodup := (h readBothWays).once.nodup_iff.mpr (nodup_filter depositsAtOneTime _)
  revert nodup
  decide +kernel

end Pactic
