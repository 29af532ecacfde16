import Pactic.Lib.Machine
import Pactic.Protocol.Conform

/-! # What an allowed call does

`Move` lists, for a thread that keeps to the protocol, every way one call can
change the database and the thread's own state, with all that is known at that
point. `exec_move` is the inversion; the invariants are proved by cases on it. -/
namespace Pactic
open FixedPoint Keyed Resumption

variable [Arithmetic]

/-- The thread still owns the request: it may commit. -/
def Stage.live : Stage → Bool
  | owner | session _ _ _ => true
  | _ => false

/-- Two states with the same books: only the cache, the broker, notifications,
logs and the clock may differ. -/
structure Shared.SameBooks (sh sh' : Shared) : Prop where
  wallets : sh'.db.wallets = sh.db.wallets
  transactions : sh'.db.transactions = sh.db.transactions
  walletRequests : sh'.db.walletRequests = sh.db.walletRequests
  versions : sh'.versions = sh.versions
  txs : sh'.txs = sh.txs
  locks : sh'.locks = sh.locks
  journal : sh'.journal = sh.journal

omit [Arithmetic] in
theorem Shared.SameBooks.rfl {sh : Shared} : sh.SameBooks sh := ⟨.refl _, .refl _, .refl _, .refl _,
  .refl _, .refl _, .refl _⟩

/-- A stored wallet as `wallet.create` inserts it. -/
structure Wallet.New (w : Wallet) : Prop where
  balance : w.balance = 0
  version : w.version = 0
  deletedAt : w.deletedAt = none

def Tx.write (tx : Tx) (l : Leg) (w : Wallet) : Tx :=
  { tx with wallets := (tx.wallets.filter fun v => v.id ≠ l.walletId) ++ [l.write w] }

def Tx.mark (tx : Tx) (j : Job) : Tx :=
  { tx with requests := tx.requests ++ [(j.txId, .success)] }

def Tx.log (tx : Tx) (j : Job) : Tx :=
  { tx with transactions := tx.transactions ++ j.rows.map TransactionData.store }

def Shared.setTx (sh : Shared) (i : Nat) (tx : Tx) : Shared :=
  { sh with txs := Function.update sh.txs i (some tx) }

def Shared.lock (sh : Shared) (i : Nat) (id : Int) : Shared :=
  { sh with locks := Function.update sh.locks id (some i) }

def Shared.setRequests (sh : Shared) (t : Table WalletRequest.txId) : Shared :=
  { sh with db.walletRequests := t }

def Shared.addWallet (sh : Shared) (w : Wallet) (t : Table Wallet.id) : Shared :=
  { sh with
    db.wallets := t
    db.nextWalletId := sh.db.nextWalletId + 1
    versions := sh.versions ++ [w] }

/-- The writes of a session in place, its locks released. -/
def Shared.install (sh : Shared) (i : Nat) (tx : Tx) (t : Table Transaction.reference) : Shared :=
  { sh with
    db.wallets := tx.wallets.foldl Table.put sh.db.wallets
    db.walletRequests := tx.requests.foldl setStatus sh.db.walletRequests
    db.transactions := t
    versions := sh.versions ++ tx.wallets }.rollback i

/-- From the left: nothing but a look, the end of all hopes to commit, a row
recorded by `createWallet`, the pre-log, the catch block, a new wallet, and the
statements of a session. -/
inductive Move (i : Nat) (o : Origin) (sh : Shared) (p : Local) : Op → Shared → Local → Prop where
  | look {op sh' p'} (same : sh.SameBooks sh') (stage : p'.stage = p.stage)
      (seen : ∀ x ∈ p'.seen, x ∈ p.seen ∨
        (x.2 ∈ sh.versions ∨ x.2 ∈ sh.db.wallets.rows) ∧ x.2.id = x.1) : Move i o sh p op sh' p'
  | stop {op sh' p'} (same : sh.SameBooks sh') (stage : p'.stage.live = false)
      (seen : p'.seen = p.seen) : Move i o sh p op sh' p'
  | record {r t p'} (job : o.job? = none) (ins : sh.db.walletRequests.insert? r = some t)
      (stage : ∀ n lg md, p'.stage ≠ .session n lg md) (seen : p'.seen = p.seen) :
      Move i o sh p (.prisma (.walletRequestCreate r))
        ((sh.setRequests t).note i o (.requestCreated r.txId)) p'
  | preLog {j t p'} (job : o.job? = some j) (fresh : p.stage = .fresh)
      (ins : sh.db.walletRequests.insert? j.pending = some t)
      (stage : p'.stage = .owner ∨ p'.stage = .over) (seen : p'.seen = p.seen) :
      Move i o sh p (.prisma (.walletRequestCreate j.pending))
        ((sh.setRequests t).note i o (.requestCreated j.txId)) p'
  | markFailed {j} (job : o.job? = some j) :
      Move i o sh p (.prisma (.walletRequestUpdateMany j.txId .failed))
        (sh.setRequests (setStatus sh.db.walletRequests (j.txId, .failed))) p
  | createWallet {u c w t} (new : w.New) (ins : sh.db.wallets.insert? w = some t) :
      Move i o sh p (.prisma (.walletCreate u c))
        ((sh.addWallet w t).note i o (.walletCreated w)) p
  | begin {p'} (job : o.job?.isSome) (owner : p.stage = .owner)
      (stage : p'.stage = .session 0 false false ∨ p'.stage = .over) (seen : p'.seen = p.seen) :
      Move i o sh p (.tx .begin) (sh.setTx i {}) p'
  | write {j n l lg md tx w p'} (job : o.job? = some j) (session : p.stage = .session n lg md)
      (leg : j.legs[n]? = some l) (known : l.Seen p.seen w.version)
      (opened : sh.txs i = some tx) (free : ∀ k, sh.locks l.walletId = some k → k = i)
      (current : sh.current tx l.walletId = some w)
      (stage : p'.stage = .session (n + 1) lg md ∨ p'.stage = .broken) (seen : p'.seen = p.seen) :
      Move i o sh p (.tx (.walletUpdate l.walletId w.version l.increment (w.version + 1)))
        ((sh.setTx i (tx.write l w)).lock i l.walletId) p'
  | mark {j n lg tx p'} (job : o.job? = some j) (session : p.stage = .session n lg false)
      (opened : sh.txs i = some tx)
      (stage : p'.stage = .session n lg true ∨ p'.stage = .broken) (seen : p'.seen = p.seen) :
      Move i o sh p (.tx (.walletRequestUpdate j.txId .success)) (sh.setTx i (tx.mark j)) p'
  | log {j n md tx p'} (job : o.job? = some j) (session : p.stage = .session n false md)
      (opened : sh.txs i = some tx)
      (stage : p'.stage = .session n true md ∨ p'.stage = .broken) (seen : p'.seen = p.seen) :
      Move i o sh p (.tx (.transactionCreate j.rows)) (sh.setTx i (tx.log j)) p'
  | commit {j tx t p'} (job : o.job? = some j)
      (session : p.stage = .session j.legs.length true true) (opened : sh.txs i = some tx)
      (ledger : tx.transactions.foldlM Table.insert? sh.db.transactions = some t)
      (stage : p'.stage = .committed ∨ p'.stage = .over) (seen : p'.seen = p.seen) :
      Move i o sh p (.tx .commit) ((sh.install i tx t).note i o (.committed j)) p'
  | rollback {op p'} (stage : p'.stage.live = false) (seen : p'.seen = p.seen) :
      Move i o sh p op (sh.rollback i) p'

theorem Move.journal {i o sh p op sh' p'} (h : Move i o sh p op sh' p') :
    ∃ es, sh'.journal = sh.journal ++ es := by
  cases h with
  | look same _ _ => exact ⟨[], by rw [same.journal, List.append_nil]⟩
  | stop same _ _ => exact ⟨[], by rw [same.journal, List.append_nil]⟩
  | record | preLog | createWallet | commit => exact ⟨_, rfl⟩
  | _ => exact ⟨[], (List.append_nil _).symm⟩

theorem Move.versions {i o sh p op sh' p'} (h : Move i o sh p op sh' p') :
    ∀ w ∈ sh.versions, w ∈ sh'.versions := by
  intro w hw
  cases h with
  | look same _ _ => exact same.versions ▸ hw
  | stop same _ _ => exact same.versions ▸ hw
  | createWallet | commit => exact List.mem_append_left _ hw
  | _ => exact hw

omit [Arithmetic] in
/-- A failed call has had no effect, or all of it. -/
theorem exec_cases {c : Choice} {i : Nat} {o : Origin} {op : Op} {sh sh' : Shared} {r}
    (h : exec c i o op sh = some (sh', r)) :
    sh' = op.fail i sh ∧ r = .error .unavailable ∨
    ∃ a r₀, op.run a i o sh = some (sh', r₀) ∧ (r = r₀ ∨ r = .error .unavailable) := by
  cases c with
  | ok a => exact .inr ⟨a, r, h, .inl rfl⟩
  | fail => cases h; exact .inl ⟨rfl, rfl⟩
  | failAfter a =>
    simp only [exec, Option.map_eq_some_iff] at h
    obtain ⟨⟨sh₁, r₀⟩, hr, he⟩ := h
    cases he
    exact .inr ⟨a, r₀, hr, .inr rfl⟩

section Inversion
variable {i : Nat} {o : Origin} {sh sh' : Shared} {p : Local}

omit [Arithmetic] in
/-- A call that answers was made as the schedule says. -/
theorem exec_answer {c : Choice} {i : Nat} {o : Origin} {op : Op}
    {sh sh' : Shared} {r} (h : exec c i o op sh = some (sh', r)) :
    (∃ a, c = .ok a ∧ op.run a i o sh = some (sh', r)) ∨ r = .error .unavailable := by
  cases c with
  | ok a => exact .inl ⟨a, rfl, h⟩
  | fail => cases h; exact .inr rfl
  | failAfter a =>
    simp only [exec, Option.map_eq_some_iff] at h
    obtain ⟨⟨sh₁, r₀⟩, -, he⟩ := h
    cases he
    exact .inr rfl

omit [Arithmetic] in
theorem Local.next_error (p : Local) (op : Op) (e : Err) : p.next op (.error e) = p ∨
    (p.next op (.error e)).stage.live = false ∧ (p.next op (.error e)).seen = p.seen := by
  cases op with
  | redis o => cases o with
    | get k => cases k <;> exact .inl rfl
    | _ => exact .inl rfl
  | prisma o => cases o with
    | walletRequestCreate r =>
      refine .inr ⟨?_, rfl⟩
      simp only [next]
      split <;> rfl
    | _ => exact .inl rfl
  | tx o => cases o <;> exact .inr ⟨rfl, rfl⟩
  | rabbit o => cases o with
    | ack m => exact .inl rfl
    | _ => simp only [next]; split
           · exact .inr ⟨rfl, rfl⟩
           · exact .inl rfl
  | library o => exact .inl rfl

/-- An error that left no trace in the books. -/
theorem Move.ofError {op : Op} (same : sh.SameBooks sh') (e : Err) :
    Move i o sh p op sh' (p.next op (.error e)) := by
  rcases p.next_error op e with h | ⟨hs, hn⟩
  · rw [h]; exact .look same rfl fun x hx => .inl hx
  · exact .stop same hs hn

theorem redis_move {op : RedisOp} {a r₀ r} (h : (Op.redis op).run a i o sh = some (sh', r₀))
    (hr : r = r₀ ∨ r = .error .unavailable) : Move i o sh p (.redis op) sh' (p.next (.redis op) r) := by
  have same : sh.SameBooks sh' := by cases h; exact ⟨rfl, rfl, rfl, rfl, rfl, rfl, rfl⟩
  rcases hr with rfl | rfl
  · have still : Move i o sh p (.redis op) sh' p := .look same rfl fun x hx => .inl hx
    cases h
    cases op with
    | set k v => exact still
    | del k => exact still
    | get k => cases k with
      | walletRequest t =>
        simp only [RedisOp.run] at still ⊢
        cases hv : sh.redis (.walletRequest t) with
        | none => exact still
        | some v =>
          simp only [Local.next]
          split
          · exact .stop same rfl rfl
          · exact still
      | _ => exact still
  · exact .ofError same _

theorem rabbit_move {op : RabbitOp} {a r₀ r} (h : (Op.rabbit op).run a i o sh = some (sh', r₀))
    (hr : r = r₀ ∨ r = .error .unavailable) :
    Move i o sh p (.rabbit op) sh' (p.next (.rabbit op) r) := by
  have same : sh.SameBooks sh' := by cases h; exact ⟨rfl, rfl, rfl, rfl, rfl, rfl, rfl⟩
  rcases hr with rfl | rfl
  · have still : Move i o sh p (.rabbit op) sh' p := .look same rfl fun x hx => .inl hx
    cases h
    cases op with
    | sendToQueue q data x =>
      simp only [Local.next]
      split
      · exact .stop same rfl rfl
      · exact still
    | _ => exact still
  · exact .ofError same _

theorem walletRequestCreate_move {row : WalletRequest} {a r₀ r}
    (ha : o.Allows p (.prisma (.walletRequestCreate row)))
    (h : (Op.prisma (.walletRequestCreate row)).run a i o sh = some (sh', r₀))
    (hr : r = r₀ ∨ r = .error .unavailable) :
    Move i o sh p (.prisma (.walletRequestCreate row)) sh'
      (p.next (.prisma (.walletRequestCreate row)) r) := by
  simp only [Op.run, PrismaOp.run] at h
  split at h
  · next t ins =>
    cases h
    have hs : (p.next (.prisma (.walletRequestCreate row)) r).stage = .owner ∨
        (p.next (.prisma (.walletRequestCreate row)) r).stage = .over := by
      rcases hr with rfl | rfl
      · exact .inl rfl
      · exact .inr (by simp [Local.next])
    have hn : (p.next (.prisma (.walletRequestCreate row)) r).seen = p.seen := by
      rcases hr with rfl | rfl <;> rfl
    rcases ha with ⟨j, hj, rfl, hf⟩ | hrec
    · exact .preLog hj hf ins hs hn
    · refine .record ?_ ins (fun n lg md he => ?_) hn
      · cases o with
        | http _ _ => rfl
        | delivery _ => cases hrec
      · rcases hs with hs | hs <;> rw [hs] at he <;> cases he
  · cases h
    rcases hr with rfl | rfl <;> exact .ofError .rfl _

theorem prisma_move {op : PrismaOp} {a r₀ r} (ha : o.Allows p (.prisma op))
    (h : (Op.prisma op).run a i o sh = some (sh', r₀)) (hr : r = r₀ ∨ r = .error .unavailable) :
    Move i o sh p (.prisma op) sh' (p.next (.prisma op) r) := by
  have still {p'} (same : sh.SameBooks sh') (hp : p' = p) : Move i o sh p (.prisma op) sh' p' :=
    hp ▸ .look same rfl fun x hx => .inl hx
  cases op with
  | walletRequestCreate row => exact walletRequestCreate_move ha h hr
  | walletRequestFindUnique t => cases h; exact still .rfl rfl
  | walletRequestUpdateMany t s =>
    obtain ⟨rfl, j, hj, rfl⟩ := ha
    cases h; exact .markFailed hj
  | walletFindUnique id =>
    cases h
    rcases hr with rfl | rfl
    · cases hw : sh.db.wallets.find? id with
      | none => exact still .rfl rfl
      | some w =>
        obtain ⟨hmem, hid⟩ := Table.find?_eq_some.mp hw
        refine .look .rfl rfl fun x hx => ?_
        rcases List.mem_cons.mp hx with rfl | hx
        · exact .inr ⟨.inr hmem, hid⟩
        · exact .inl hx
    · exact still .rfl rfl
  | walletFindFirst u c => cases h; exact still .rfl rfl
  | walletFindMany u => cases h; exact still .rfl rfl
  | walletCreate u c =>
    simp only [Op.run, PrismaOp.run] at h
    split at h
    · cases h; exact still .rfl rfl
    · split at h
      · next t ins => cases h; exact .createWallet ⟨rfl, rfl, rfl⟩ ins
      · cases h; exact still .rfl rfl
  | transactionFindFirst t => cases h; exact still .rfl rfl
  | notificationCreate n => cases h; exact still ⟨rfl, rfl, rfl, rfl, rfl, rfl, rfl⟩ rfl
  | loginLogCreate n => cases h; exact still ⟨rfl, rfl, rfl, rfl, rfl, rfl, rfl⟩ rfl
  | _ => exact ha.elim

theorem walletUpdate_move {id v : Int} {inc : ℚ} {nv : Int} {a r₀ r}
    (ha : o.Allows p (.tx (.walletUpdate id v inc nv)))
    (h : (Op.tx (.walletUpdate id v inc nv)).run a i o sh = some (sh', r₀))
    (hr : r = r₀ ∨ r = .error .unavailable) :
    Move i o sh p (.tx (.walletUpdate id v inc nv)) sh' (p.next (.tx (.walletUpdate id v inc nv)) r) := by
  obtain ⟨j, n, l, lg, md, hj, hs, hl, rfl, rfl, rfl, known⟩ := ha
  simp only [Op.run, TxOp.run] at h
  split at h
  · cases h
  next tx opened =>
  have write {sh₁} (free : ∀ k, sh.locks l.walletId = some k → k = i)
      (hw : TxOp.run.write i l.walletId v l.increment (v + 1) tx sh = some (sh₁, r₀)) :
      Move i o sh p (.tx (.walletUpdate l.walletId v l.increment (v + 1))) sh₁
        (p.next (.tx (.walletUpdate l.walletId v l.increment (v + 1))) r) := by
    unfold TxOp.run.write at hw
    split at hw
    · cases hw; rcases hr with rfl | rfl <;> exact .ofError .rfl _
    next w current =>
    split at hw
    · next hv =>
      subst hv; cases hw
      refine .write hj hs hl known opened free current ?_ ?_
      · rcases hr with rfl | rfl
        · simp only [Local.next, hs]; exact .inl trivial
        · exact .inr rfl
      · rcases hr with rfl | rfl
        · simp only [Local.next, hs]
        · rfl
    · cases hw; rcases hr with rfl | rfl <;> exact .ofError .rfl _
  split at h
  · next k hk =>
    split at h
    · next hki => exact write (fun k' hk' => by rw [hk] at hk'; cases hk'; exact hki) h
    · cases h
  · next hk => exact write (fun k' hk' => by rw [hk] at hk'; cases hk') h

theorem commit_move {a r₀ r} (ha : o.Allows p (.tx .commit))
    (h : (Op.tx .commit).run a i o sh = some (sh', r₀)) (hr : r = r₀ ∨ r = .error .unavailable) :
    Move i o sh p (.tx .commit) sh' (p.next (.tx .commit) r) := by
  obtain ⟨j, hj, hs⟩ := ha
  simp only [Op.run, TxOp.run, Option.map_eq_some_iff] at h
  obtain ⟨tx, opened, h⟩ := h
  unfold Shared.commit at h
  split at h
  · cases h
    rcases hr with rfl | rfl <;> exact .rollback rfl rfl
  · next t ledger =>
    simp only [hj] at h
    cases h
    refine .commit hj hs opened ledger ?_ ?_
    · rcases hr with rfl | rfl
      · exact .inl rfl
      · exact .inr rfl
    · rcases hr with rfl | rfl <;> rfl

theorem tx_move {op : TxOp} {a r₀ r} (ha : o.Allows p (.tx op))
    (h : (Op.tx op).run a i o sh = some (sh', r₀)) (hr : r = r₀ ∨ r = .error .unavailable) :
    Move i o sh p (.tx op) sh' (p.next (.tx op) r) := by
  cases op with
  | begin =>
    cases h
    refine .begin ha.1 ha.2 ?_ ?_
    · rcases hr with rfl | rfl
      · exact .inl rfl
      · exact .inr rfl
    · rcases hr with rfl | rfl <;> rfl
  | walletFindUnique id =>
    simp only [Op.run, TxOp.run] at h
    split at h
    · cases h
    cases h
    rcases hr with rfl | rfl
    · cases hw : (sh.versions.filter fun w => w.id = id)[a.pick]? with
      | none => exact .look .rfl rfl fun x hx => .inl hx
      | some w =>
        have hmem := List.mem_filter.mp (List.mem_of_getElem? hw)
        refine .look .rfl rfl fun x hx => ?_
        rcases List.mem_cons.mp hx with rfl | hx
        · exact .inr ⟨.inl hmem.1, by simpa using hmem.2⟩
        · exact .inl hx
    · exact .ofError .rfl _
  | walletUpdate id v inc nv => exact walletUpdate_move ha h hr
  | walletRequestUpdate t s =>
    obtain ⟨j, n, lg, hj, hs, rfl, rfl⟩ := ha
    simp only [Op.run, TxOp.run] at h
    split at h
    · cases h
    next tx opened =>
    split at h
    · cases h; rcases hr with rfl | rfl <;> exact .ofError .rfl _
    · cases h
      refine .mark hj hs opened ?_ ?_
      · rcases hr with rfl | rfl
        · simp only [Local.next, hs]; exact .inl trivial
        · exact .inr rfl
      · rcases hr with rfl | rfl
        · simp only [Local.next, hs]
        · rfl
  | transactionCreate rows =>
    obtain ⟨j, n, md, hj, hs, rfl⟩ := ha
    simp only [Op.run, TxOp.run] at h
    split at h
    · cases h
    next tx opened =>
    split at h
    · cases h; rcases hr with rfl | rfl <;> exact .ofError .rfl _
    · cases h
      refine .log hj hs opened ?_ ?_
      · rcases hr with rfl | rfl
        · simp only [Local.next, hs]; exact .inl trivial
        · exact .inr rfl
      · rcases hr with rfl | rfl
        · simp only [Local.next, hs]
        · rfl
  | commit => exact commit_move ha h hr
  | rollback => cases h; exact .rollback rfl rfl

omit [Arithmetic] in
/-- A new wallet is the first of its user in its currency. -/
theorem exec_walletCreate {c : Choice} {u : Int} {cur : String} {r}
    (h : exec c i o (.prisma (.walletCreate u cur)) sh = some (sh', r)) :
    (sh' = sh ∧ ∃ e, r = .error e) ∨ (∀ w ∈ sh.db.wallets.rows, ¬ (w.userId = u ∧ w.currency = cur)) ∧
      ∃ w t, w = ⟨sh.db.nextWalletId, u, 0, cur, 0, sh.db.now, none⟩ ∧
        sh.db.wallets.insert? w = some t ∧ sh' = (sh.addWallet w t).note i o (.walletCreated w) ∧
        (r = .ok w ∨ r = .error .unavailable) := by
  rcases exec_cases h with ⟨rfl, rfl⟩ | ⟨a, r₀, hrun, hr⟩
  · exact .inl ⟨rfl, _, rfl⟩
  simp only [Op.run, PrismaOp.run] at hrun
  split at hrun
  · cases hrun
    rcases hr with rfl | rfl <;> exact .inl ⟨rfl, _, rfl⟩
  · next hnone =>
    split at hrun
    · next t ins =>
      cases hrun
      refine .inr ⟨fun w hw he => hnone ?_, _, t, rfl, ins, rfl, hr⟩
      exact List.any_eq_true.mpr ⟨w, hw, decide_eq_true he⟩
    · cases hrun
      rcases hr with rfl | rfl <;> exact .inl ⟨rfl, _, rfl⟩

/-- Every call a thread may make is one of the moves. -/
theorem exec_move {c : Choice} {op : Op} {r} (ha : o.Allows p op)
    (h : exec c i o op sh = some (sh', r)) : Move i o sh p op sh' (p.next op r) := by
  rcases exec_cases h with ⟨rfl, rfl⟩ | ⟨a, r₀, hrun, hr⟩
  · cases op with
    | tx op => cases op with
      | commit => exact .rollback rfl rfl
      | rollback => exact .rollback rfl rfl
      | _ => exact .ofError .rfl _
    | _ => exact .ofError .rfl _
  · cases op with
    | redis op => exact redis_move hrun hr
    | prisma op => exact prisma_move ha hrun hr
    | tx op => exact tx_move ha hrun hr
    | rabbit op => exact rabbit_move hrun hr
    | library op => exact ha.elim

end Inversion

/-! ## The rule for the books -/

abbrev Threads := Machine.Ghost Origin Local

/-- What an invariant of the books owes: it survives whatever leaves the books
alone, a thread that starts, a move, and the end of a session. -/
structure Keeps (C : State → Step → Prop) (K I : Shared → Threads → Prop) : Prop where
  same : ∀ {sh sh' g}, sh.SameBooks sh' → I sh g → I sh' g
  start : ∀ {sh g i o}, g i = none → I sh g → I sh (Function.update g i (some (o, o.first)))
  move : ∀ {s : State} {i c o op k sh' p p' g}, C s (.run i c) →
    s.threads[i]? = some ⟨o, .call op k⟩ → (∃ r, exec c i o op s.shared = some (sh', r)) →
    K s.shared g → I s.shared g → g i = some (o, p) → Move i o s.shared p op sh' p' →
    I sh' (Function.update g i (some (o, p')))
  kill : ∀ {sh g i}, I sh g → I (sh.rollback i) g

theorem Origin.accept_same {o : Origin} {sh sh' : Shared} (h : o.accept sh = some sh') :
    sh.SameBooks sh' := by
  cases o with
  | http tok r =>
    rw [(accept_http h).2]
    exact .rfl
  | delivery m =>
    rw [(accept_delivery h).2.2]
    exact ⟨rfl, rfl, rfl, rfl, rfl, rfl, rfl⟩

omit [Arithmetic] in
theorem EnvStep.run_same {e : EnvStep} {sh sh' : Shared} (h : e.run sh = some sh') :
    sh.SameBooks sh' := by
  cases e with
  | expire k => cases h; exact ⟨rfl, rfl, rfl, rfl, rfl, rfl, rfl⟩
  | tick => cases h; exact ⟨rfl, rfl, rfl, rfl, rfl, rfl, rfl⟩
  | _ =>
    simp only [run] at h
    split at h
    · cases h; exact ⟨rfl, rfl, rfl, rfl, rfl, rfl, rfl⟩
    · cases h

theorem Keeps.stable {C : State → Step → Prop} {K I : Shared → Threads → Prop}
    (h : Keeps C K I) : Machine.Stable service protocol Origin.first C K I where
  start _ _ _ _ _ _ _ _ hI hg ha := h.same (Origin.accept_same ha) (h.start hg hI)
  run _ _ _ _ _ _ _ _ _ _ hc ht hk hI hg ha he := h.move hc ht ⟨_, he⟩ hk hI hg (exec_move ha he)
  env _ _ _ _ _ _ hI he := h.same (EnvStep.run_same he) hI
  kill _ _ _ _ _ hI := h.kill hI

/-- Every thread a wallet run starts keeps to the protocol. -/
theorem service_obeys {C : State → Step → Prop} (hC : ∀ s l, C s l → WalletRun s l) :
    Machine.Obeys service protocol Ends Origin.first C := by
  intro s o sh hc ha
  refine Origin.program_keeps ?_
  cases o with
  | http tok r => exact hC _ _ hc
  | delivery m => exact (Origin.accept_delivery ha).2.1

/-- The threads of a quiet state. -/
def noThreads : Threads := fun _ => none

theorem Quiet.tracks {s : State} (h : Quiet s) :
    Machine.Tracks .crashed protocol Ends s.threads noThreads := .of_nil h.threads

/-- What one step of the service does to the books: nothing, the end of a
session, or a move of one thread. -/
theorem step_cases {s t : State} {l : Step} {g : Threads}
    (ht : Machine.Tracks .crashed protocol Ends s.threads g) (h : step s l = some t) :
    s.shared.SameBooks t.shared ∨ (∃ i, t.shared = s.shared.rollback i) ∨
    ∃ i c o op k p p', l = .run i c ∧ s.threads[i]? = some ⟨o, .call op k⟩ ∧ g i = some (o, p) ∧
      Move i o s.shared p op t.shared p' := by
  cases Machine.step_fires h with
  | start ha => exact .inl (Origin.accept_same ha)
  | env he => exact .inl (EnvStep.run_same he)
  | kill _ => exact .inr (.inl ⟨_, rfl⟩)
  | run hi he =>
    obtain ⟨p, hg, allowed, -⟩ := ht.called hi
    exact .inr (.inr ⟨_, _, _, _, _, p, _, rfl, hi, hg, exec_move allowed he⟩)

end Pactic
