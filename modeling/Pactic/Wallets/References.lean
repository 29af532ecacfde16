import Pactic.Wallets.Commits

/-! # Ledger references

Deposits and withdrawals enter the ledger under their txId, the two sides of a
transfer under its txId with a suffix. A txId is any string, so it may end in
such a suffix itself. -/
namespace Pactic
open Keyed Resumption

def Job.references (j : Job) : List String := j.rows.map TransactionData.reference

/-- The job enters the ledger under a reference of the transfer. -/
def Job.Borrows : Job → Job → Prop
  | transfer _, _ => False
  | j, transfer d => j.txId = d.txId ++ "-sender" ∨ j.txId = d.txId ++ "-recipient"
  | _, _ => False

theorem sender_ne_recipient (a b : String) : a ++ "-sender" ≠ b ++ "-recipient" := by
  intro h
  have chars := congrArg (fun s => s.toList.getLast?) h
  have r : "-sender".toList.getLast? = some 'r' := rfl
  have t : "-recipient".toList.getLast? = some 't' := rfl
  simp only [String.toList_append, List.getLast?_append, r, t, Option.some_or] at chars
  cases chars

theorem Job.references_nodup (j : Job) : j.references.Nodup := by
  cases j with
  | transfer d =>
    refine List.nodup_cons.mpr ⟨fun h => ?_, List.nodup_singleton _⟩
    exact sender_ne_recipient _ _ (List.mem_singleton.mp h)
  | _ => exact List.nodup_singleton _

/-- Two jobs with txIds of their own share a reference exactly if the txId of one
is a reference of the other, a transfer. -/
theorem Job.references_disjoint_iff {j j' : Job} (h : j.txId ≠ j'.txId) :
    j.references.Disjoint j'.references ↔ ¬ j.Borrows j' ∧ ¬ j'.Borrows j := by
  have pair {t : String} {d : TransferWalletDto} :
      [t].Disjoint (transfer d).references ↔
        ¬ (t = d.txId ++ "-sender" ∨ t = d.txId ++ "-recipient") := by
    rw [List.singleton_disjoint]
    simp [references, rows]
  have alone {t t' : String} (ht : t ≠ t') : [t].Disjoint [t'] := by
    rw [List.singleton_disjoint, List.mem_singleton]
    exact ht
  cases j with
  | transfer d =>
    cases j' with
    | transfer d' =>
      refine iff_of_true (fun r hr hr' => ?_) ⟨id, id⟩
      have own {s : String} : d.txId ++ s ≠ d'.txId ++ s := fun he =>
        h ((String.append_left_inj s).mp he)
      rcases List.mem_cons.mp hr with rfl | hr
      · rcases List.mem_cons.mp hr' with he | hr'
        · exact own he
        · exact sender_ne_recipient _ _ (List.mem_singleton.mp hr')
      · cases List.mem_singleton.mp hr
        rcases List.mem_cons.mp hr' with he | hr'
        · exact sender_ne_recipient _ _ he.symm
        · exact own (List.mem_singleton.mp hr')
    | funding d' => exact List.disjoint_comm.trans (pair.trans (and_iff_right id).symm)
    | withdrawal d' => exact List.disjoint_comm.trans (pair.trans (and_iff_right id).symm)
  | funding d =>
    cases j' with
    | transfer d' => exact pair.trans (and_iff_left id).symm
    | _ => exact iff_of_true (alone h) ⟨id, id⟩
  | withdrawal d =>
    cases j' with
    | transfer d' => exact pair.trans (and_iff_left id).symm
    | _ => exact iff_of_true (alone h) ⟨id, id⟩

/-! ## The ledger -/

/-- Every row of the ledger was there before or is one of a committed job. -/
theorem Book.replay_rows {b b' : Book} {es : List Event} (h : es.foldlM replay b = some b') :
    ∀ row ∈ b'.transactions.rows, row ∈ b.transactions.rows ∨
      ∃ j, .committed j ∈ es ∧ row.reference ∈ j.references := by
  induction es generalizing b with
  | nil => cases h; exact fun row hrow => .inl hrow
  | cons e es ih =>
    simp only [List.foldlM_cons, Option.bind_eq_bind, Option.bind_eq_some_iff] at h
    obtain ⟨mid, he, hrest⟩ := h
    intro row hrow
    rcases ih hrest row hrow with hmid | ⟨j, hj, href⟩
    · cases e with
      | committed j =>
        obtain ⟨-, -, -, -, ledger⟩ := apply_eq_some.mp he
        rw [Table.rows_of_foldlM_insert? ledger, List.mem_append] at hmid
        rcases hmid with hmid | hmid
        · exact .inl hmid
        · obtain ⟨d, hd, rfl⟩ := List.mem_map.mp hmid
          exact .inr ⟨j, .head _, List.mem_map_of_mem hd⟩
      | walletCreated v =>
        simp only [replay, Option.map_eq_some_iff] at he
        obtain ⟨t, -, rfl⟩ := he
        exact .inl hmid
      | _ => cases he; exact .inl hmid
    · exact .inr ⟨j, .tail _ hj, href⟩

/-- The rows of a job fit in, unless the ledger has one of its references. -/
theorem Job.rows_refused {j : Job} {ledger : Table Transaction.reference}
    (h : (j.rows.map TransactionData.store).foldlM Table.insert? ledger = none) :
    ∃ row ∈ ledger.rows, row.reference ∈ j.references := by
  have keys : (j.rows.map TransactionData.store).map Transaction.reference = j.references := by
    rw [List.map_map]
    rfl
  obtain ⟨r, hr, x, hx, he⟩ :=
    Table.exists_of_foldlM_insert?_eq_none (keys ▸ j.references_nodup) h
  exact ⟨x, hx, he ▸ keys ▸ List.mem_map_of_mem hr⟩

/-- A statement in the session of the job finds one of its references taken. -/
def State.Refuses (s : State) (l : Step) (j : Job) : Prop :=
  ∃ i a o op k sh, l = .run i (.ok a) ∧ s.threads[i]? = some ⟨o, .call (.tx op) k⟩ ∧
    o.job? = some j ∧ exec (.ok a) i o (.tx op) s.shared = some (sh, .error .p2002)

/-- Only the rows of the job itself can be refused. -/
theorem Sound.refused {sh sh' : Shared} {g : Threads} {i : Nat} {o : Origin} {p : Local} {j : Job}
    {op : TxOp} {a : Answer} (h : Sound sh g) (hg : g i = some (o, p)) (hj : o.job? = some j)
    (ha : o.Allows p (.tx op)) (he : exec (.ok a) i o (.tx op) sh = some (sh', .error .p2002)) :
    p.stage.live = true ∧ ∃ row ∈ sh.db.transactions.rows, row.reference ∈ j.references := by
  cases op with
  | transactionCreate rows =>
    obtain ⟨j', n, md, hj', session, rfl⟩ := ha
    rw [hj] at hj'
    cases hj'
    simp only [exec, Op.run, TxOp.run] at he
    split at he
    · cases he
    · next tx opened =>
      have unlogged := (h.session hg hj session opened).transactions
      rw [if_neg Bool.false_ne_true] at unlogged
      rw [unlogged, List.nil_append] at he
      split at he
      · next refused => exact ⟨by rw [session]; rfl, Job.rows_refused refused⟩
      · cases he
  | commit =>
    obtain ⟨j', hj', session⟩ := ha
    rw [hj] at hj'
    cases hj'
    simp only [exec, Op.run, TxOp.run, Option.map_eq_some_iff] at he
    obtain ⟨tx, opened, he⟩ := he
    have logged := (h.session hg hj session opened).transactions
    rw [if_pos rfl] at logged
    unfold Shared.commit at he
    split at he
    · next refused => exact ⟨by rw [session]; rfl, Job.rows_refused (logged ▸ refused)⟩
    · cases he
  | walletUpdate id v inc nv =>
    have never {tx r} (hw : TxOp.run.write i id v inc nv tx sh = some (sh', r)) :
        r ≠ .error .p2002 := by
      unfold TxOp.run.write at hw
      split at hw
      · cases hw; exact fun he => by cases he
      · split at hw
        · cases hw; exact fun he => by cases he
        · cases hw; exact fun he => by cases he
    simp only [exec, Op.run, TxOp.run] at he
    split at he
    · cases he
    · split at he
      · split at he
        · exact absurd rfl (never he)
        · cases he
      · exact absurd rfl (never he)
  | walletFindUnique id =>
    simp only [exec, Op.run, TxOp.run] at he
    split at he <;> cases he
  | walletRequestUpdate t status =>
    simp only [exec, Op.run, TxOp.run] at he
    split at he
    · cases he
    · split at he <;> cases he
  | begin => cases he
  | rollback => cases he

/-- References collide exactly if a deposit or a withdrawal borrows one of a
transfer, and where all rows of the ledger are those of committed jobs no job is
refused for the row of a job that does not borrow from it or lend to it. -/
theorem references_collide_iff {s : State} (hq : Quiet s)
    (empty : s.shared.db.transactions = ∅) :
    (∀ j j' : Job, j.txId ≠ j'.txId →
      (j.references.Disjoint j'.references ↔ ¬ j.Borrows j' ∧ ¬ j'.Borrows j)) ∧
    ∀ t l j, Reach WalletRun s t → t.Refuses l j →
      ∃ j', .committed j' ∈ t.shared.journal.map Entry.event ∧ j'.txId ≠ j.txId ∧
        (j.Borrows j' ∨ j'.Borrows j) := by
  refine ⟨fun j j' => Job.references_disjoint_iff, fun t l j h refused => ?_⟩
  obtain ⟨i, a, o, op, k, sh, -, hi, hj, he⟩ := refused
  have stable := (sound_keeps WalletRun fun _ _ => True).stable.and
    (owned_keeps WalletRun fun sh g => True ∧ Sound sh g).stable
  obtain ⟨g, ht, sound, owned⟩ := stable.invariant (service_obeys fun _ _ => id) hq.tracks
    ⟨hq.sound, hq.owned⟩ h
  obtain ⟨p, hg, allowed, -⟩ := ht.called hi
  obtain ⟨live, row, hrow, href⟩ := sound.refused hg hj allowed he
  have explained := h.explains (fun _ _ => id) hq
  rcases Book.replay_rows explained row hrow with hold | ⟨j', committed, href'⟩
  · have none : s.shared.book.transactions = ∅ := empty
    rw [none] at hold
    cases hold
  · have own : j'.txId ≠ j.txId := by
      intro same
      refine owned.uncommitted ⟨o, p, j, hg, hj, rfl, live⟩ (same ▸ ?_)
      obtain ⟨e, hmem, hev⟩ := List.mem_map.mp committed
      exact List.mem_filterMap.mpr ⟨e, hmem, by rw [hev]; rfl⟩
    refine ⟨j', committed, own, ?_⟩
    by_contra hc
    rw [not_or] at hc
    exact (Job.references_disjoint_iff own.symm).mpr hc href href'

def borrower : FundWalletDto := ⟨1, 1, "USD", 10, "b-sender"⟩

def lender : TransferWalletDto := ⟨1, 1, 2, 2, 3, "USD", "b"⟩

/-- User 1 deposits ten dollars and sends three of them to user 2; the transfer is
about to enter the ledger. -/
def transferOfLender : List Step :=
  .start (.http 1 (.createWallet ⟨1, "USD", "w1"⟩)) :: calls 0 9 ++
  .start (.http 2 (.createWallet ⟨2, "USD", "w2"⟩)) :: calls 1 9 ++
  .start (.http 1 (.fundWallet borrower)) :: calls 2 4 ++
  .start (.delivery ⟨.walletFunding, .job (.funding borrower), none, 2⟩) :: calls 3 13 ++
  .start (.http 1 (.transferFunds lender)) :: calls 4 4 ++
  .start (.delivery ⟨.walletTransfer, .job (.transfer lender), none, 4⟩) :: calls 5 3 ++
  .run 5 (.ok { pick := 1 }) :: calls 5 3

/-- The job whose next statement is refused for a reference that is taken. -/
def State.refusal (s : State) (i : Nat) : Option Job :=
  match s.threads[i]? with
  | some ⟨o, .call (.tx op) _⟩ => match exec (.ok {}) i o (.tx op) s.shared with
    | some (_, .error .p2002) => o.job?
    | _ => none
  | _ => none

theorem State.refuses_of_refusal {s : State} {i : Nat} {j : Job} (h : s.refusal i = some j) :
    s.Refuses (.run i (.ok {})) j := by
  unfold refusal at h
  split at h
  · next o op k hi =>
    split at h
    · next sh he => exact ⟨i, {}, o, op, k, sh, rfl, hi, h, he⟩
    · cases h
  · cases h

theorem transferOfLender_refused : ∃ t, Reach WalletRun State.empty t ∧
    t.Refuses (.run 5 (.ok {})) (.transfer lender) ∧
    .committed (.funding borrower) ∈ t.shared.journal.map Entry.event := by
  have h : ((runSteps transferOfLender State.empty).any fun t =>
      State.refusal t 5 = some (.transfer lender) ∧
      .committed (.funding borrower) ∈ t.shared.journal.map Entry.event) = true := by decide +kernel
  obtain ⟨t, ht, hp⟩ := runSteps_any h
  obtain ⟨refused, committed⟩ := of_decide_eq_true hp
  exact ⟨t, reach_of_runSteps rfl ht, State.refuses_of_refusal refused, committed⟩

theorem references_collide_iff_borrowed : ∃ t : State,
    t.Refuses (.run 5 (.ok {})) (.transfer lender) ∧
    ∃ j, .committed j ∈ t.shared.journal.map Entry.event ∧ j.txId ≠ lender.txId ∧
      ((Job.transfer lender).Borrows j ∨ j.Borrows (.transfer lender)) := by
  obtain ⟨t, reach, refused, -⟩ := transferOfLender_refused
  exact ⟨t, refused, (references_collide_iff State.empty_quiet rfl).2 t _ _ reach refused⟩

/-- A deposit with the txId `b-sender` keeps a covered transfer with the txId `b`
out of the ledger. -/
theorem reference_is_taken : ∃ j j' : Job, j.txId ≠ j'.txId ∧ j.txId ≠ "" ∧ j'.txId ≠ "" ∧
    ¬ j.references.Disjoint j'.references ∧
    ∃ t l, Reach WalletRun State.empty t ∧ t.Refuses l j' ∧
      .committed j ∈ t.shared.journal.map Entry.event := by
  obtain ⟨t, reach, refused, committed⟩ := transferOfLender_refused
  refine ⟨.funding borrower, .transfer lender, by decide, by decide, by decide, fun hd => ?_, t, _,
    reach, refused, committed⟩
  exact hd (.head _) (.head _)

end Pactic
