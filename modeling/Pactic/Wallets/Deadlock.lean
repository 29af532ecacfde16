import Pactic.Lib.Locks
import Pactic.Protocol.Messages
import Pactic.Wallets.Balances

/-! # Deadlocks

A transfer locks the sender's wallet and then the recipient's, whatever their
ids are. Threads that wait for each other in a circle are transfers that pay
each other in a circle; without such a circle nobody waits for ever. -/
namespace Pactic
open Keyed Locking Resumption

/-- The wallet whose row the thread is about to update. -/
def ServiceThread.wants (th : ServiceThread) : Option Int :=
  match th.prog with
  | .call (.tx (.walletUpdate id _ _ _)) _ => some id
  | _ => none

/-- The row locks of the open sessions and who is about to take one. -/
def State.lockTable (s : State) : LockTable Nat Int where
  wants i := s.threads[i]?.bind ServiceThread.wants
  holder := s.shared.locks

/-- A transfer in progress pays from wallet `a` to another wallet `b`. -/
def State.Pays (s : State) (a b : Int) : Prop := a ≠ b ∧ ∃ th ∈ s.threads, ∃ d,
  th.origin.job? = some (.transfer d) ∧ th.prog.finished = false ∧
    d.senderWalletId = a ∧ d.recipientWalletId = b

/-- No transfer is delivered that closes a circle of payments in progress. -/
def NoCircle (s : State) (l : Step) : Prop := WalletRun s l ∧ ∀ m d, l = .start (.delivery m) →
  m.data = .job (.transfer d) → d.senderWalletId ≠ d.recipientWalletId →
    ¬ Relation.ReflTransGen s.Pays d.recipientWalletId d.senderWalletId

/-! ## Who holds which lock -/

/-- At this stage a thread with this job may hold the lock of this wallet. -/
def Local.MayLock (p : Local) (j : Job) (id : Int) : Prop :=
  match p.stage with
  | .fresh | .skipped | .owner => False
  | .session n _ _ => id ∈ (j.legs.take n).map Leg.walletId
  | _ => True

def Locked (sh : Shared) (g : Threads) : Prop := ∀ id k, sh.locks id = some k →
  ∃ o p j, g k = some (o, p) ∧ o.job? = some j ∧ p.MayLock j id

section
variable {sh sh' : Shared} {g : Threads} {i : Nat} {o : Origin} {p : Local} {c : Choice}

theorem walletUpdate_locks {id v inc nv a r}
    (h : (Op.tx (.walletUpdate id v inc nv)).run a i o sh = some (sh', r)) :
    sh'.locks = sh.locks ∨ sh'.locks = Function.update sh.locks id (some i) := by
  have write {tx sh₁ r₁} (hw : TxOp.run.write i id v inc nv tx sh = some (sh₁, r₁)) :
      sh₁.locks = sh.locks ∨ sh₁.locks = Function.update sh.locks id (some i) := by
    unfold TxOp.run.write at hw
    split at hw
    · cases hw; exact .inl rfl
    · split at hw
      · cases hw; exact .inr rfl
      · cases hw; exact .inl rfl
  simp only [Op.run, TxOp.run] at h
  split at h
  · cases h
  · split at h
    · split at h
      · exact write h
      · cases h
    · exact write h

/-- The end of a session releases its locks. -/
theorem rollback_locks (sh : Shared) (i : Nat) (id : Int) :
    (sh.rollback i).locks id ≠ some i ∧
      ∀ k, (sh.rollback i).locks id = some k → sh.locks id = some k := by
  simp only [Shared.rollback]
  split
  · exact ⟨fun h => (by cases h), fun k h => by cases h⟩
  · next hne => exact ⟨hne, fun k h => h⟩

theorem commit_locks {tx : Tx} (id : Int) : (sh.commit i o tx).1.locks id ≠ some i ∧
    ∀ k, (sh.commit i o tx).1.locks id = some k → sh.locks id = some k := by
  unfold Shared.commit
  split
  · exact rollback_locks sh i id
  · dsimp only
    split
    · exact rollback_locks _ i id
    · exact rollback_locks _ i id

/-- A lock is taken by the update of its wallet only. -/
theorem exec_locks {op : Op} {r} (h : exec c i o op sh = some (sh', r)) {id : Int} {k : Nat}
    (hk : sh'.locks id = some k) : sh.locks id = some k ∨
      k = i ∧ ∃ v inc nv, op = .tx (.walletUpdate id v inc nv) := by
  rcases exec_cases h with ⟨rfl, -⟩ | ⟨a, r₀, hrun, -⟩
  · cases op with
    | tx op => cases op with
      | commit => exact .inl ((rollback_locks sh i id).2 k hk)
      | rollback => exact .inl ((rollback_locks sh i id).2 k hk)
      | _ => exact .inl hk
    | _ => exact .inl hk
  · cases op with
    | redis op => cases hrun; exact .inl hk
    | rabbit op => cases hrun; exact .inl hk
    | library op => cases hrun; exact .inl hk
    | prisma op => exact .inl ((PrismaOp.run_frame hrun).2.2.2 ▸ hk)
    | tx op =>
      cases op with
      | walletUpdate id' v inc nv =>
        rcases walletUpdate_locks hrun with hl | hl
        · exact .inl (hl ▸ hk)
        · rw [hl] at hk
          by_cases he : id = id'
          · subst he
            rw [Function.update_self] at hk
            exact .inr ⟨(Option.some.inj hk).symm, v, inc, nv, rfl⟩
          · rw [Function.update_of_ne he] at hk
            exact .inl hk
      | commit =>
        simp only [Op.run, TxOp.run, Option.map_eq_some_iff] at hrun
        obtain ⟨tx, -, he⟩ := hrun
        rw [show sh' = (sh.commit i o tx).1 by rw [he]] at hk
        exact .inl ((commit_locks id).2 k hk)
      | rollback => cases hrun; exact .inl ((rollback_locks sh i id).2 k hk)
      | begin => cases hrun; exact .inl hk
      | _ =>
        simp only [Op.run, TxOp.run] at hrun
        repeat' split at hrun
        all_goals cases hrun
        all_goals exact .inl hk

/-- After a commit or a rollback, answered or not, a thread holds no lock. -/
theorem exec_end_locks {op : TxOp} {r} (hop : op = .commit ∨ op = .rollback)
    (h : exec c i o (.tx op) sh = some (sh', r)) (id : Int) : sh'.locks id ≠ some i := by
  rcases exec_cases h with ⟨rfl, -⟩ | ⟨a, r₀, hrun, -⟩
  · rcases hop with rfl | rfl <;> exact (rollback_locks sh i id).1
  · rcases hop with rfl | rfl
    · simp only [Op.run, TxOp.run, Option.map_eq_some_iff] at hrun
      obtain ⟨tx, -, he⟩ := hrun
      rw [show sh' = (sh.commit i o tx).1 by rw [he]]
      exact (commit_locks id).1
    · cases hrun; exact (rollback_locks sh i id).1

/-- Whoever holds a lock has an allowed call before it, and may hold it after. -/
theorem Local.MayLock.next {op : Op} {r} {j : Job} {id : Int} (ha : o.Allows p op)
    (hj : o.job? = some j) (h : p.MayLock j id) (hend : ∀ op', op = .tx op' →
      op' ≠ .commit ∧ op' ≠ .rollback) : (p.next op r).MayLock j id := by
  have stuck {s : Stage} (hs : p.stage = s) (hf : s = .fresh ∨ s = .skipped ∨ s = .owner) : False := by
    unfold MayLock at h
    rw [hs] at h
    rcases hf with rfl | rfl | rfl <;> exact h
  cases op with
  | redis op =>
    cases op with
    | get k =>
      cases k with
      | walletRequest t =>
        obtain ⟨-, -, -, hs⟩ := ha.resolve_left (by rw [hj]; intro hn; cases hn)
        exact (stuck hs (.inl rfl)).elim
      | _ => exact h
    | _ => exact h
  | prisma op =>
    cases op with
    | walletRequestCreate row =>
      rcases ha with ⟨-, -, -, hs⟩ | hrec
      · exact (stuck hs (.inl rfl)).elim
      · cases o with
        | http _ _ => cases hj
        | delivery _ => cases hrec
    | walletFindUnique id =>
      cases r with
      | error e => exact h
      | ok w => cases w <;> exact h
    | _ => exact h
  | rabbit op =>
    have left {s : Stage} {b : Bool} (hs : s = .sent ∨ s = .lost) :
        (if b then { p with stage := s } else p).MayLock j id := by
      cases b
      · exact h
      · rcases hs with rfl | rfl <;> exact trivial
    cases op with
    | ack m => exact h
    | assertQueue q => cases r with
      | ok _ => exact h
      | error _ => exact left (.inr rfl)
    | sendToQueue q data x => cases r with
      | ok _ => exact left (.inl rfl)
      | error _ => exact left (.inr rfl)
  | library op => exact ha.elim
  | tx op =>
    have written {n m : Nat} {lg md : Bool} (hs : p.stage = .session n lg md) (hle : n ≤ m) :
        id ∈ (j.legs.take m).map Leg.walletId := by
      unfold MayLock at h
      rw [hs] at h
      exact List.map_subset _ (List.take_subset_take_left _ hle) h
    cases op with
    | begin => exact (stuck ha.2 (.inr (.inr rfl))).elim
    | commit => exact absurd rfl (hend _ rfl).1
    | rollback => exact absurd rfl (hend _ rfl).2
    | walletFindUnique id' =>
      cases r with
      | error e => exact trivial
      | ok w => cases w <;> exact h
    | walletUpdate id' v inc nv =>
      obtain ⟨_, n, _, lg, md, -, hs, -⟩ := ha
      cases r with
      | error e => exact trivial
      | ok _ => simp only [Local.next, hs, MayLock]; exact written hs (Nat.le_succ n)
    | walletRequestUpdate t s =>
      obtain ⟨_, n, lg, -, hs, -⟩ := ha
      cases r with
      | error e => exact trivial
      | ok _ => simp only [Local.next, hs, MayLock]; exact written hs le_rfl
    | transactionCreate rows =>
      obtain ⟨_, n, md, -, hs, -⟩ := ha
      cases r with
      | error e => exact trivial
      | ok _ => simp only [Local.next, hs, MayLock]; exact written hs le_rfl

/-- A call of a thread leaves the locks with those who may hold them. -/
theorem Locked.call {op : Op} {r} (h : Locked sh g) (hg : g i = some (o, p)) (ha : o.Allows p op)
    (he : exec c i o op sh = some (sh', r)) :
    Locked sh' (Function.update g i (some (o, p.next op r))) := by
  intro id k hk
  have released {op'} (hop : op = .tx op') (hend : op' = .commit ∨ op' = .rollback) : k ≠ i := by
    subst hop
    rintro rfl
    exact exec_end_locks hend he id hk
  rcases exec_locks he hk with hold | ⟨rfl, v, inc, nv, rfl⟩
  · obtain ⟨o', q, j, hgk, hj, hm⟩ := h id k hold
    by_cases hki : k = i
    · subst hki
      rw [hg] at hgk
      cases hgk
      refine ⟨o, _, j, Function.update_self .., hj, hm.next ha hj fun op' hop => ⟨?_, ?_⟩⟩
      · exact fun hc => released hop (.inl hc) rfl
      · exact fun hc => released hop (.inr hc) rfl
    · exact ⟨o', q, j, by rwa [Function.update_of_ne hki], hj, hm⟩
  · obtain ⟨j, n, l, lg, md, hj, hs, hl, rfl, -⟩ := ha
    refine ⟨o, _, j, Function.update_self .., hj, ?_⟩
    cases r with
    | error e => exact trivial
    | ok _ =>
      simp only [Local.next, hs, Local.MayLock]
      rw [List.take_add_one, hl, List.map_append]
      exact List.mem_append_right _ (.head _)

end

theorem locked_stable (C : State → Step → Prop) (K : Shared → Threads → Prop) :
    Machine.Stable service protocol Origin.first C K Locked where
  start s o sh g i _ _ _ h hg ha id k hk := by
    obtain ⟨o', p, j, hgk, rest⟩ := h id k ((Origin.accept_same ha).locks ▸ hk)
    refine ⟨o', p, j, ?_, rest⟩
    rw [Function.update_of_ne]
    · exact hgk
    · rintro rfl; rw [hg] at hgk; cases hgk
  run _ _ _ _ _ _ _ _ _ _ _ _ _ h hg ha he := h.call hg ha he
  env _ _ _ _ _ _ h he id k hk := h id k ((EnvStep.run_same he).locks ▸ hk)
  kill _ i _ _ _ h id k hk := h id k ((rollback_locks _ i id).2 k hk)

theorem Quiet.locked {s : State} (h : Quiet s) : Locked s.shared noThreads := by
  intro id k hk
  rw [h.locks] at hk; cases hk

/-! ## Waiting threads are paying transfers -/

/-- Whoever holds a lock and wants another one is a transfer between the two. -/
theorem Locked.pays {s : State} {g : Threads} {a b : Int} (h : Locked s.shared g)
    (ht : Machine.Tracks .crashed protocol Ends s.threads g) (hl : s.lockTable.Leads a b) :
    s.Pays a b := by
  obtain ⟨i, ha, hw, hb⟩ := hl
  have hne : a ≠ b := by rintro rfl; exact hb ha
  simp only [State.lockTable, Option.bind_eq_some_iff] at hw
  obtain ⟨⟨o, prog⟩, hi, hw⟩ := hw
  simp only [ServiceThread.wants] at hw
  split at hw
  · next id v inc nv k =>
    cases hw
    obtain ⟨p, hg, ⟨j, n, l, lg, md, hj, hs, hleg, rfl, -⟩, -⟩ := ht.called hi
    obtain ⟨o', p', j', hg', hj', hm⟩ := h a i ha
    rw [hg] at hg'
    cases hg'
    rw [hj] at hj'
    cases hj'
    simp only [Local.MayLock, hs] at hm
    -- only a transfer has a leg before the one it is about to write
    have transfer : ∃ d, j = .transfer d ∧ d.senderWalletId = a ∧
        d.recipientWalletId = l.walletId := by
      cases n with
      | zero => cases hm
      | succ n =>
        cases j with
        | transfer d =>
          cases n with
          | zero =>
            cases hleg
            exact ⟨d, rfl, (List.mem_singleton.mp hm).symm, rfl⟩
          | succ n => cases hleg
        | _ => cases hleg
    obtain ⟨d, rfl, hd⟩ := transfer
    exact ⟨hne, _, List.mem_of_getElem? hi, d, hj, rfl, hd⟩
  · cases hw

/-! ## Payments in progress -/

/-- A step ends payments, and begins one if it delivers a transfer. -/
theorem step_pays {s t : State} {l : Step} (hs : step s l = some t) {a b : Int} (h : t.Pays a b) :
    s.Pays a b ∨ ∃ m d, l = .start (.delivery m) ∧ m.data = .job (.transfer d) ∧
      d.senderWalletId ≠ d.recipientWalletId ∧ a = d.senderWalletId ∧ b = d.recipientWalletId := by
  obtain ⟨hne, th, hth, d, hj, hf, ha, hb⟩ := h
  have moved {i : Nat} {o : Origin} {op k} {q : Proc Reply}
      (hi : s.threads[i]? = some ⟨o, .call op k⟩) (hmem : th ∈ s.threads.set i ⟨o, q⟩) :
      s.Pays a b := by
    rcases List.mem_or_eq_of_mem_set hmem with hmem | rfl
    · exact ⟨hne, th, hmem, d, hj, hf, ha, hb⟩
    · exact ⟨hne, _, List.mem_of_getElem? hi, d, hj, rfl, ha, hb⟩
  cases Machine.step_fires hs with
  | start _ =>
    rcases List.mem_append.mp hth with hmem | hmem
    · exact .inl ⟨hne, th, hmem, d, hj, hf, ha, hb⟩
    · cases List.mem_singleton.mp hmem
      refine .inr ?_
      rename_i o _ _
      cases o with
      | http _ _ => cases hj
      | delivery m =>
        refine ⟨m, d, rfl, ?_, ha ▸ hb ▸ hne, ha.symm, hb.symm⟩
        simp only [Origin.job?] at hj
        split at hj
        · next he => cases hj; exact he
        · cases hj
  | run hi _ => exact .inl (moved hi hth)
  | env _ => exact .inl ⟨hne, th, hth, d, hj, hf, ha, hb⟩
  | kill hi => exact .inl (moved hi hth)

theorem Reach.acyclic_pays {s t : State} (hq : Quiet s) (h : Reach NoCircle s t) :
    Acyclic t.Pays := by
  induction h with
  | refl =>
    have none (a b) : ¬ s.Pays a b := by
      rintro ⟨-, th, hth, -⟩
      rw [hq.threads] at hth; cases hth
    intro a hc
    obtain ⟨b, hb, -⟩ := Relation.TransGen.head'_iff.mp hc
    exact none a b hb
  | @tail t u l _ hc hs ih =>
    by_cases hd : ∃ m d, l = .start (.delivery m) ∧ m.data = .job (.transfer d) ∧
        d.senderWalletId ≠ d.recipientWalletId
    · obtain ⟨m, d, hl, hm, hne⟩ := hd
      refine ih.insert (hc.2 m d hl hm hne) fun a b hp => (step_pays hs hp).imp_right ?_
      rintro ⟨m', d', hl', hm', -, rfl, rfl⟩
      rw [hl] at hl'
      cases hl'
      rw [hm] at hm'
      cases hm'
      exact ⟨rfl, rfl⟩
    · refine ih.mono fun a b hp => (step_pays hs hp).resolve_right ?_
      rintro ⟨m, d, hl, hm, hne, -⟩
      exact hd ⟨m, d, hl, hm, hne⟩

/-- While no transfer is delivered that closes a circle of payments, no threads
wait for each other in a circle. -/
theorem transfers_do_not_deadlock {s t : State} (hq : Quiet s) (h : Reach NoCircle s t) :
    Acyclic t.lockTable.Waits := by
  obtain ⟨g, ht, locked⟩ := (locked_stable NoCircle _).invariant
    (service_obeys fun _ _ hc => hc.1) hq.tracks hq.locked h
  exact LockTable.acyclic_waits ((h.acyclic_pays hq).mono fun a b => locked.pays ht)

/-- No transfer in progress pays from the wallet that one that is delivered pays. -/
def noPayback (s : State) (l : Step) : Bool :=
  l.ofWallets && match l with
    | .start (.delivery ⟨_, .job (.transfer d), _, _⟩) => s.threads.all fun th =>
      th.prog.finished || match th.origin.job? with
        | some (.transfer d') => d'.senderWalletId ≠ d.recipientWalletId
        | _ => true
    | _ => true

theorem noCircle_of_noPayback {s : State} {l : Step} (h : noPayback s l = true) : NoCircle s l := by
  obtain ⟨hw, h⟩ := (Bool.and_eq_true _ _).mp h
  refine ⟨hw, fun m d hl hm hne hc => ?_⟩
  obtain ⟨q, data, x, tag⟩ := m
  subst hl
  cases hm
  rcases Relation.ReflTransGen.cases_head hc with he | ⟨a, ha, -⟩
  · exact hne he.symm
  · obtain ⟨-, th, hth, d', hj, hf, hpays, -⟩ := ha
    have onward := List.all_eq_true.mp h th hth
    simp only [hj, hf, hpays, Bool.false_or, ne_eq, not_true_eq_false, decide_false] at onward
    cases onward

/-- A second transfer between the same wallets is about to take the lock that the
first one holds until its commit. -/
def transfersQueued : List Step :=
  let again : TransferWalletDto := ⟨1, 1, 2, 2, 2, "USD", "c"⟩
  transferPrepared 3 ++
  .start (.http 1 (.transferFunds again)) :: calls 6 4 ++
  .start (.delivery ⟨.walletTransfer, .job (.transfer again), none, 5⟩) :: calls 7 3 ++
  [.run 7 (.ok { pick := 1 }), .run 7 (.ok {})]

theorem transfers_do_not_deadlock_queued : ∃ t, Reach NoCircle State.empty t ∧ t.Pays 1 2 ∧
    t.lockTable.Waits 7 5 ∧ Acyclic t.lockTable.Waits := by
  have h : (service.runsIf .crashed noPayback transfersQueued State.empty).any (fun t =>
      decide ((State.lockTable t).wants 7 = some 1 ∧ (State.lockTable t).holder 1 = some 5) &&
      t.threads.any fun th => !th.prog.finished && th.origin.job? =
        some (.transfer ⟨1, 1, 2, 2, 3, "USD", "b"⟩)) = true := by decide +kernel
  obtain ⟨t, ht, hp⟩ := Option.any_eq_true _ _ |>.mp h
  obtain ⟨hl, hp⟩ := (Bool.and_eq_true _ _).mp hp
  obtain ⟨wants, holder⟩ := of_decide_eq_true hl
  obtain ⟨th, hth, hp⟩ := List.any_eq_true.mp hp
  obtain ⟨hf, hj⟩ := (Bool.and_eq_true _ _).mp hp
  have reach := Machine.reach_of_runsIf (fun _ _ => noCircle_of_noPayback) ht
  exact ⟨t, reach, ⟨by decide, th, hth, _, of_decide_eq_true hj, by simpa using hf, rfl, rfl⟩,
    ⟨by decide, 1, wants, holder⟩, transfers_do_not_deadlock State.empty_quiet reach⟩

/-- Two funded wallets, a transfer from each to the other, both up to the update
of the second wallet. -/
def transfersCrossed : List Step :=
  let deposit₁ : FundWalletDto := ⟨1, 1, "USD", 10, "a1"⟩
  let deposit₂ : FundWalletDto := ⟨2, 2, "USD", 10, "a2"⟩
  let there : TransferWalletDto := ⟨1, 1, 2, 2, 3, "USD", "b"⟩
  let back : TransferWalletDto := ⟨2, 2, 1, 1, 3, "USD", "c"⟩
  .start (.http 1 (.createWallet ⟨1, "USD", "w1"⟩)) :: calls 0 9 ++
  .start (.http 2 (.createWallet ⟨2, "USD", "w2"⟩)) :: calls 1 9 ++
  .start (.http 1 (.fundWallet deposit₁)) :: calls 2 4 ++
  .start (.delivery ⟨.walletFunding, .job (.funding deposit₁), none, 2⟩) :: calls 3 13 ++
  .start (.http 2 (.fundWallet deposit₂)) :: calls 4 4 ++
  .start (.delivery ⟨.walletFunding, .job (.funding deposit₂), none, 4⟩) :: calls 5 13 ++
  .start (.http 1 (.transferFunds there)) :: calls 6 4 ++
  .start (.http 2 (.transferFunds back)) :: calls 7 4 ++
  .start (.delivery ⟨.walletTransfer, .job (.transfer there), none, 6⟩) :: calls 8 3 ++
  [.run 8 (.ok { pick := 1 }), .run 8 (.ok { pick := 1 }), .run 8 (.ok {})] ++
  .start (.delivery ⟨.walletTransfer, .job (.transfer back), none, 7⟩) :: calls 9 3 ++
  [.run 9 (.ok { pick := 1 }), .run 9 (.ok { pick := 1 }), .run 9 (.ok {})]

/-- Each transfer waits for the wallet that the other one has locked. -/
theorem crossed_transfers_deadlock : ∃ t, Reach WalletRun State.empty t ∧
    t.lockTable.Waits 8 9 ∧ t.lockTable.Waits 9 8 ∧ ¬ Acyclic t.lockTable.Waits := by
  have h : ((runSteps transfersCrossed State.empty).any fun t =>
      t.lockTable.wants 8 = some 2 ∧ t.lockTable.holder 2 = some 9 ∧
      t.lockTable.wants 9 = some 1 ∧ t.lockTable.holder 1 = some 8) = true := by decide +kernel
  obtain ⟨t, ht, hp⟩ := runSteps_any h
  obtain ⟨hw₈, hl₂, hw₉, hl₁⟩ := of_decide_eq_true hp
  have there : t.lockTable.Waits 8 9 := ⟨by decide, 2, hw₈, hl₂⟩
  have back : t.lockTable.Waits 9 8 := ⟨by decide, 1, hw₉, hl₁⟩
  exact ⟨t, reach_of_runSteps rfl ht, there, back, fun ha =>
    ha 8 (.tail (.single there) back)⟩

end Pactic
