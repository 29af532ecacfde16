import Pactic.Protocol.Spec

/-! # The programs keep to the protocol

One equation for each call with a private effect, one lemma for each part of a
handler, and from them `Origin.program_keeps`: whatever its calls answer, a
thread of the wallet side makes only the calls it may make. -/
namespace Pactic
open Resumption

variable [Arithmetic]

variable {o : Origin} {j : Job} {p : Local} {seen : List (Int × Wallet)} {α : Type}

/-! ## Single calls -/

/-- A call that the thread's private state does not follow. -/
theorem wp_still {op : Op} {Q : Except Err op.Res → Local → Prop} (h : ∀ r, p.next op r = p) :
    (protocol o).wp (call op) Q p ↔ o.Allows p op ∧ ∀ r, Q r p := by
  simp only [call, Monitor.wp_perform, protocol, h]

theorem wp_getRequest {t Q} : (protocol o).wp (Redis.get (.walletRequest t)) Q p ↔
    o.Allows p (.redis (.get (.walletRequest t))) ∧ Q (.ok none) p ∧
    (∀ v, Q (.ok (some v)) (if v.status.final then { p with stage := .skipped } else p)) ∧
    ∀ e, Q (.error e) p :=
  ⟨fun h => ⟨h.1, h.2 (.ok none), fun v => h.2 (.ok (some v)), fun e => h.2 (.error e)⟩,
    fun h => ⟨h.1, fun r => match r with
      | .ok none => h.2.1
      | .ok (some v) => h.2.2.1 v
      | .error e => h.2.2.2 e⟩⟩

theorem wp_walletRequestCreate {row Q} :
    (protocol o).wp (Prisma.walletRequestCreate row) Q p ↔
    o.Allows p (.prisma (.walletRequestCreate row)) ∧
    (∀ r, Q (.ok r) { p with stage := .owner }) ∧
    ∀ e, Q (.error e) { p with stage := if e = .p2002 then .skipped else .over } :=
  and_congr Iff.rfl forall_except

theorem wp_prismaFindUnique {id Q} :
    (protocol o).wp (Prisma.walletFindUnique id) Q p ↔
    Q (.ok none) p ∧ (∀ w, Q (.ok (some w)) { p with seen := (id, w) :: p.seen }) ∧
    ∀ e, Q (.error e) p :=
  ⟨fun h => ⟨h.2 (.ok none), fun v => h.2 (.ok (some v)), fun e => h.2 (.error e)⟩,
    fun h => ⟨trivial, fun r => match r with
      | .ok none => h.1
      | .ok (some w) => h.2.1 w
      | .error e => h.2.2 e⟩⟩

theorem wp_begin {Q} : (protocol o).wp (call (.tx .begin)) Q p ↔
    o.Allows p (.tx .begin) ∧ Q (.ok ()) { p with stage := .session 0 false false } ∧
    ∀ e, Q (.error e) { p with stage := .over } :=
  and_congr Iff.rfl forall_except_unit

theorem wp_commit {Q} : (protocol o).wp (call (.tx .commit)) Q p ↔
    o.Allows p (.tx .commit) ∧ Q (.ok ()) { p with stage := .committed } ∧
    ∀ e, Q (.error e) { p with stage := .over } :=
  and_congr Iff.rfl forall_except_unit

theorem wp_rollback {Q} : (protocol o).wp (call (.tx .rollback)) Q p ↔
    p.stage.holds = true ∧ ∀ r, Q r { p with stage := .over } := Iff.rfl

theorem wp_txFindUnique {id Q} : (protocol o).wp (Tx.walletFindUnique id) Q p ↔
    o.Allows p (.tx (.walletFindUnique id)) ∧ Q (.ok none) p ∧
    (∀ w, Q (.ok (some w)) { p with seen := (id, w) :: p.seen }) ∧
    ∀ e, Q (.error e) { p with stage := .broken } :=
  ⟨fun h => ⟨h.1, h.2 (.ok none), fun v => h.2 (.ok (some v)), fun e => h.2 (.error e)⟩,
    fun h => ⟨h.1, fun r => match r with
      | .ok none => h.2.1
      | .ok (some w) => h.2.2.1 w
      | .error e => h.2.2.2 e⟩⟩

theorem wp_walletUpdate {id v inc nv n lg md Q} :
    (protocol o).wp (Tx.walletUpdate id v inc nv) Q ⟨.session n lg md, seen⟩ ↔
    o.Allows ⟨.session n lg md, seen⟩ (.tx (.walletUpdate id v inc nv)) ∧
    Q (.ok ()) ⟨.session (n + 1) lg md, seen⟩ ∧ ∀ e, Q (.error e) ⟨.broken, seen⟩ :=
  and_congr Iff.rfl forall_except_unit

theorem wp_walletRequestUpdate {t s n lg md Q} :
    (protocol o).wp (Tx.walletRequestUpdate t s) Q ⟨.session n lg md, seen⟩ ↔
    o.Allows ⟨.session n lg md, seen⟩ (.tx (.walletRequestUpdate t s)) ∧
    Q (.ok ()) ⟨.session n lg true, seen⟩ ∧ ∀ e, Q (.error e) ⟨.broken, seen⟩ :=
  and_congr Iff.rfl forall_except_unit

theorem wp_transactionCreate {rows n lg md Q} :
    (protocol o).wp (Tx.transactionCreate rows) Q ⟨.session n lg md, seen⟩ ↔
    o.Allows ⟨.session n lg md, seen⟩ (.tx (.transactionCreate rows)) ∧
    (∀ ts, Q (.ok ts) ⟨.session n true md, seen⟩) ∧ ∀ e, Q (.error e) ⟨.broken, seen⟩ :=
  and_congr Iff.rfl forall_except

/-! ## The parts of a handler -/

omit [Arithmetic] in
theorem Status.final_iff {s : Status} : s.final = true ↔ s = .success ∨ s = .failed := by
  cases s <;> simp [final]

theorem alreadyProcessed_keeps {Q : Except Err Bool → Local → Prop} (hj : o.job? = some j)
    (hp : p.stage = .fresh) (skip : Q (.ok true) { p with stage := .skipped })
    (go : Q (.ok false) p) (err : ∀ e, Q (.error e) p) :
    (protocol o).wp (alreadyProcessed j.txId) Q p := by
  simp only [alreadyProcessed, Monitor.wp_bind]
  refine wp_getRequest.mpr ⟨.inr ⟨j, hj, rfl, hp⟩, go, fun v => ?_, err⟩
  simp only [Monitor.wp_ite, Monitor.wp_pure, Monitor.wp_bind, ← Status.final_iff]
  by_cases hf : v.status.final = true
  · simpa only [hf, if_true] using skip
  · simp only [hf]
    refine (wp_still fun _ => rfl).mpr ⟨⟨j, hj, rfl, hp⟩, forall_except_unit.mpr ⟨go, err⟩⟩

theorem preLog_keeps {Q : Except Err Bool → Local → Prop} (hj : o.job? = some j)
    (hp : p.stage = .fresh) (mine : Q (.ok true) { p with stage := .owner })
    (skip : Q (.ok false) { p with stage := .skipped })
    (err : ∀ e, Q (.error e) { p with stage := .over }) :
    (protocol o).wp (preLog j.payer j.currency j.txId) Q p := by
  simp only [preLog, Monitor.wp_tryCatch, Monitor.wp_bind, wp_walletRequestCreate,
    Monitor.wp_ite, Monitor.wp_pure, Monitor.wp_throw]
  refine ⟨.inl ⟨j, hj, rfl, hp⟩, fun _ => mine, fun e => ?_⟩
  by_cases he : e = .p2002
  · simpa only [he, if_true] using skip
  · simpa only [he, if_false] using err e

/-- The catch block is always in order. -/
theorem markFailed_keeps {Q : Except Err Unit → Local → Prop} (hj : o.job? = some j)
    (h : ∀ r, Q r p) : (protocol o).wp (markFailed j.txId) Q p := by
  simp only [markFailed, Prisma.walletRequestUpdateMany, Redis.set, Monitor.wp_bind]
  refine (wp_still fun _ => rfl).mpr ⟨⟨rfl, j, hj, rfl⟩, forall_except_unit.mpr ⟨?_, fun e => h _⟩⟩
  exact (wp_still fun _ => rfl).mpr ⟨.inr ⟨j, hj, rfl, .inl rfl⟩, h⟩

theorem checkWallet_keeps {w : Option Wallet} {u c m} {Q : Except Err Wallet → Local → Prop}
    (ok : ∀ v, w = some v → v.ValidFor u c → Q (.ok v) p) (err : ∀ e, Q (.error e) p) :
    (protocol o).wp (checkWallet w u c m) Q p := by
  cases w with
  | none => exact err _
  | some v =>
    simp only [checkWallet, Monitor.wp_ite, Monitor.wp_pure, Monitor.wp_throw]
    split
    · next hv => exact ok v rfl hv
    · exact err _

/-- How the body of a `$transaction` may return: everything of the job is written. -/
def Ready (j : Job) : Except Err α → Local → Prop
  | .ok _, q => q.stage = .session j.legs.length true true
  | .error _, q => q.stage.holds = true

theorem transaction_keeps {body : Proc α} {Q : Except Err α → Local → Prop}
    (hj : o.job? = some j) (hp : p.stage = .owner)
    (h : (protocol o).wp body (Ready j) { p with stage := .session 0 false false })
    (ok : ∀ a q, q.stage = .committed → Q (.ok a) q)
    (err : ∀ e q, q.stage = .over → Q (.error e) q) :
    (protocol o).wp (Prisma.transaction body) Q p := by
  simp only [Prisma.transaction, Monitor.wp_bind, Monitor.wp_tryCatch]
  refine wp_begin.mpr ⟨⟨by simp [hj], hp⟩, Monitor.wp_mono _ h fun r q hr => ?_, fun e => err _ _ rfl⟩
  cases r with
  | ok a =>
    exact wp_commit.mpr ⟨⟨j, hj, hr⟩, ok a _ rfl, fun e => err _ _ rfl⟩
  | error e =>
    exact wp_rollback.mpr ⟨hr, forall_except_unit.mpr ⟨err _ _ rfl, fun _ => err _ _ rfl⟩⟩

/-- How a handler may return: the job was taken, or it is done. One that throws
still answers for the job. -/
def Finished : Except Err Unit → Local → Prop
  | .ok _, q => q.stage = .skipped ∨ q.stage = .committed
  | .error _, q => q.stage.holds = true

omit [Arithmetic] in
theorem Finished.ofCommitted {r q} (h : q.stage = .committed) : Finished r q := by
  cases r with
  | ok _ => exact .inr h
  | error _ => exact congrArg Stage.holds h

omit [Arithmetic] in
theorem Finished.error {e} {q : Local} {s : Stage} (h : q.stage = s) (hs : s.holds = true) :
    Finished (.error e) q := (congrArg Stage.holds h).trans hs

/-- A program that is in order wherever `I` holds, and keeps `I`. -/
def Maintains (o : Origin) (I : Local → Prop) (c : Proc α) : Prop :=
  ∀ q, I q → (protocol o).wp c (fun _ q => I q) q

namespace Maintains
variable {β : Type} {I : Local → Prop}

theorem pure (a : α) : Maintains o I (pure a) := fun _ hq => hq

theorem throw (e : Err) : Maintains o I (throw e : Proc α) := fun _ hq => hq

theorem bind {c : Proc α} {f : α → Proc β} (hc : Maintains o I c)
    (hf : ∀ a, Maintains o I (f a)) : Maintains o I (c >>= f) := by
  intro q hq
  refine (Monitor.wp_bind _ _ _ _ _).mpr (Monitor.wp_mono _ (hc q hq) fun r t ht => ?_)
  cases r with
  | ok a => exact hf a t ht
  | error _ => exact ht

theorem tryCatch {c : Proc α} {f : Err → Proc α} (hc : Maintains o I c)
    (hf : ∀ e, Maintains o I (f e)) : Maintains o I (tryCatch c f) := by
  intro q hq
  refine (Monitor.wp_tryCatch _ _ _ _ _).mpr (Monitor.wp_mono _ (hc q hq) fun r t ht => ?_)
  cases r with
  | ok _ => exact ht
  | error e => exact hf e t ht

theorem promiseAll {c : Proc α} {d : Proc β} (hc : Maintains o I c) (hd : Maintains o I d) :
    Maintains o I (promiseAll c d) := by
  refine bind (tryCatch (bind hc fun _ => pure _) fun _ => pure _) fun a => ?_
  refine bind (tryCatch (bind hd fun _ => pure _) fun _ => pure _) fun b => ?_
  cases a with
  | error e => exact throw e
  | ok a => cases b with
    | error e => exact throw e
    | ok b => exact pure _

/-- A call that is always in order and leaves the private state alone. -/
theorem still {op : Op} (ha : ∀ p, o.Allows p op) (hn : ∀ (p : Local) r, p.next op r = p) :
    Maintains o I (call op) := fun q hq => (wp_still (hn q)).mpr ⟨ha q, fun _ => hq⟩

/-- A call that is always in order, when nothing is to be kept. -/
theorem free {op : Op} (ha : ∀ p, o.Allows p op) : Maintains o (fun _ => True) (call op) :=
  fun q _ => ⟨ha q, fun _ => trivial⟩

theorem findTransaction (r : String) : Maintains o I (Prisma.transactionFindFirst r) :=
  still (fun _ => trivial) fun _ _ => rfl

theorem delWallets (u : Int) : Maintains o I (Redis.del (.userWallets u)) :=
  still (fun _ => trivial) fun _ _ => rfl

theorem prepend (u row) : Maintains o I (prependTransaction u row) := by
  refine bind (still (fun _ => trivial) fun _ _ => rfl) fun cached => ?_
  cases cached with
  | none => exact pure _
  | some _ => exact still (fun _ => trivial) fun _ _ => rfl

/-- Publishing what is not a job. -/
theorem announce {q data x} (hd : data.isJob = false) (hq : q.carriesJobs = false) :
    Maintains o I (sendToQueue q data x) := by
  refine tryCatch (bind (still (fun _ => trivial) fun p r => ?_) fun _ =>
    still (fun _ => .inl hd) fun p r => ?_) fun _ => pure _
  · cases r with
    | ok _ => rfl
    | error _ => simp [Local.next, hq]
  · cases r <;> simp [Local.next, hd]

theorem notify (u title body) : Maintains o I (notify u title body) := announce rfl rfl

/-- Caching the status is in order once the transaction has committed. -/
theorem setSuccess (hj : o.job? = some j) :
    Maintains o (·.stage = .committed) (Redis.set (.walletRequest j.txId) (.bare .success)) :=
  fun _ hq => (wp_still fun _ => rfl).mpr ⟨.inr ⟨j, hj, rfl, .inr ⟨rfl, hq⟩⟩, fun _ => hq⟩

theorem finished {c : Proc Unit} (h : Maintains o (·.stage = .committed) c)
    (hp : p.stage = .committed) : (protocol o).wp c Finished p :=
  Monitor.wp_mono _ (h p hp) fun _ _ hq => .ofCommitted hq

end Maintains

/-! ## The handlers -/

theorem fundingTransaction_keeps {d : FundWalletDto} (hj : o.job? = some (.funding d))
    (hv : ∃ w, (d.walletId, w) ∈ seen ∧ w.ValidFor d.userId d.currency) :
    (protocol o).wp (fundingTransaction d) (Ready (.funding d)) ⟨.session 0 false false, seen⟩ := by
  obtain ⟨v, hmem, hval⟩ := hv
  simp only [fundingTransaction, Monitor.wp_bind]
  refine wp_txFindUnique.mpr ⟨rfl, rfl, fun w => ?_, fun _ => rfl⟩
  simp only [Monitor.wp_bind]
  refine wp_walletUpdate.mpr ⟨?_, wp_walletRequestUpdate.mpr ⟨?_, wp_transactionCreate.mpr
    ⟨?_, fun _ => rfl, fun _ => rfl⟩, fun _ => rfl⟩, fun _ => rfl⟩
  · exact ⟨_, 0, ⟨d.walletId, d.userId, d.currency, netAmount d.amount, false⟩, false, false, hj,
      rfl, rfl, rfl, rfl, rfl, ⟨v, .tail _ hmem, hval⟩, w, .head _, rfl, fun hc => by cases hc⟩
  · exact ⟨_, 1, false, hj, rfl, rfl, rfl⟩
  · exact ⟨_, 1, true, hj, rfl, rfl⟩

theorem fund_keeps {d : FundWalletDto} (hj : o.job? = some (.funding d)) (hp : p.stage = .owner) :
    (protocol o).wp (fund d) Finished p := by
  refine (Monitor.wp_bind _ _ _ _ _).mpr
    (wp_prismaFindUnique.mpr ⟨?_, fun w => ?_, fun _ => .error hp rfl⟩)
  · exact (Monitor.wp_bind _ _ _ _ _).mpr (checkWallet_keeps nofun fun _ => .error hp rfl)
  refine (Monitor.wp_bind _ _ _ _ _).mpr
    (checkWallet_keeps (fun v hw hv => ?_) fun _ => .error hp rfl)
  cases hw
  refine (Monitor.wp_bind _ _ _ _ _).mpr (transaction_keeps hj hp
    (fundingTransaction_keeps hj ⟨w, .head _, hv⟩) (fun t q hq => ?_) fun _ _ hq => .error hq rfl)
  exact (Maintains.bind (.setSuccess hj) fun _ => .bind (.prepend _ _) fun _ =>
    .notify _ _ _).finished hq

theorem withdrawalTransaction_keeps {d : WithdrawWalletDto}
    (hj : o.job? = some (.withdrawal d)) :
    (protocol o).wp (withdrawalTransaction d) (Ready (.withdrawal d))
      ⟨.session 0 false false, seen⟩ := by
  simp only [withdrawalTransaction, Monitor.wp_bind]
  refine wp_txFindUnique.mpr ⟨rfl, checkWallet_keeps (fun _ hv => by cases hv) fun _ => rfl,
    fun w => ?_, fun _ => rfl⟩
  refine checkWallet_keeps (fun v hw hv => ?_) fun _ => rfl
  cases hw
  simp only [Monitor.wp_ite, Monitor.wp_throw, Monitor.wp_bind]
  split
  · exact rfl
  next hc =>
  refine wp_walletUpdate.mpr ⟨?_, wp_walletRequestUpdate.mpr ⟨?_, wp_transactionCreate.mpr
    ⟨?_, fun _ => rfl, fun _ => rfl⟩, fun _ => rfl⟩, fun _ => rfl⟩
  · refine ⟨_, 0, ⟨d.walletId, d.userId, d.currency, -d.amount, true⟩, false, false, hj,
      rfl, rfl, rfl, rfl, rfl, ⟨w, .head _, hv⟩, w, .head _, rfl, fun _ => ?_⟩
    rw [neg_neg]; exact not_lt.mp hc
  · exact ⟨_, 1, false, hj, rfl, rfl, rfl⟩
  · exact ⟨_, 1, true, hj, rfl, rfl⟩

theorem withdraw_keeps {d : WithdrawWalletDto} (hj : o.job? = some (.withdrawal d))
    (hp : p.stage = .owner) : (protocol o).wp (withdraw d) Finished p := by
  refine (Monitor.wp_bind _ _ _ _ _).mpr (transaction_keeps hj hp
    (withdrawalTransaction_keeps hj) (fun t q hq => ?_) fun _ _ hq => .error hq rfl)
  exact (Maintains.bind (.setSuccess hj) fun _ => .bind (.delWallets _) fun _ =>
    .bind (.prepend _ _) fun _ => .notify _ _ _).finished hq

theorem transferTransaction_keeps {d : TransferWalletDto} (hj : o.job? = some (.transfer d)) :
    (protocol o).wp (transferTransaction d) (Ready (.transfer d))
      ⟨.session 0 false false, seen⟩ := by
  simp only [transferTransaction, Monitor.wp_bind]
  -- both wallets are read before either is checked
  refine wp_txFindUnique.mpr ⟨rfl, wp_txFindUnique.mpr ⟨rfl, ?_, fun _ => ?_,
    fun _ => rfl⟩, fun v => wp_txFindUnique.mpr ⟨rfl, ?_, fun w => ?_,
    fun _ => rfl⟩, fun _ => rfl⟩
  · exact checkWallet_keeps (fun _ hv => by cases hv) fun _ => rfl
  · exact checkWallet_keeps (fun _ hv => by cases hv) fun _ => rfl
  · exact checkWallet_keeps (fun _ _ _ => checkWallet_keeps (fun _ hw => by cases hw) fun _ => rfl)
      fun _ => rfl
  refine checkWallet_keeps (fun v' hv' hv => checkWallet_keeps (fun w' hw' hw => ?_)
    fun _ => rfl) fun _ => rfl
  cases hv'; cases hw'
  simp only [Monitor.wp_ite, Monitor.wp_throw, Monitor.wp_bind]
  split
  · exact rfl
  next hc =>
  refine wp_walletUpdate.mpr ⟨?_, wp_walletUpdate.mpr ⟨?_, wp_transactionCreate.mpr
    ⟨?_, fun _ => wp_walletRequestUpdate.mpr ⟨?_, rfl, fun _ => rfl⟩,
    fun _ => rfl⟩, fun _ => rfl⟩, fun _ => rfl⟩
  · refine ⟨_, 0, ⟨d.senderWalletId, d.senderId, d.currency, -d.amount, true⟩, false, false, hj,
      rfl, rfl, rfl, rfl, rfl, ⟨v, .tail _ (.head _), hv⟩, v, .tail _ (.head _), rfl, fun _ => ?_⟩
    rw [neg_neg]; exact not_lt.mp hc
  · exact ⟨_, 1, ⟨d.recipientWalletId, d.recipientId, d.currency, d.amount, false⟩, false, false,
      hj, rfl, rfl, rfl, rfl, rfl, ⟨w, .head _, hw⟩, w, .head _, rfl, fun hc => by cases hc⟩
  · exact ⟨_, 2, false, hj, rfl, rfl⟩
  · exact ⟨_, 2, true, hj, rfl, rfl, rfl⟩

theorem transfer_keeps {d : TransferWalletDto} (hj : o.job? = some (.transfer d))
    (hp : p.stage = .owner) : (protocol o).wp (transfer d) Finished p := by
  refine (Monitor.wp_bind _ _ _ _ _).mpr (transaction_keeps hj hp
    (transferTransaction_keeps hj) (fun _ q hq => ?_) fun _ _ hq => .error hq rfl)
  refine (Maintains.bind (.setSuccess hj) fun _ =>
    .bind (.promiseAll (.findTransaction _) (.findTransaction _)) fun _ => ?_).finished hq
  exact .bind (.prepend _ _) fun _ => .bind (.prepend _ _) fun _ =>
    .bind (.promiseAll (.delWallets _) (.delWallets _)) fun _ =>
    .bind (.promiseAll (.notify _ _ _) (.notify _ _ _)) fun _ => .pure _

/-- The part the three handlers share, around the part `m` of each. -/
theorem guarded_keeps {m : Proc Unit} (hj : o.job? = some j) (hp : p.stage = .fresh)
    (hm : ∀ q, q.stage = .owner → (protocol o).wp m Finished q) :
    (protocol o).wp (do
      if ← alreadyProcessed j.txId then pure ()
      else if ← preLog j.payer j.currency j.txId then m
      else pure ()) Finished p := by
  refine (Monitor.wp_bind _ _ _ _ _).mpr (alreadyProcessed_keeps hj hp (.inl rfl) ?_
    fun _ => .error hp rfl)
  refine (Monitor.wp_bind _ _ _ _ _).mpr (preLog_keeps hj hp (hm _ rfl) (.inl rfl)
    fun _ => .error rfl rfl)

/-- The catch block that rethrows. -/
theorem rethrow_keeps {c : Proc Unit} (hj : o.job? = some j)
    (hc : (protocol o).wp c Finished p) :
    (protocol o).wp (tryCatch c fun e => do markFailed j.txId; throw e) Finished p := by
  refine (Monitor.wp_tryCatch _ _ _ _ _).mpr (Monitor.wp_mono _ hc fun r q hq => ?_)
  cases r with
  | ok _ => exact hq
  | error e =>
    refine (Monitor.wp_bind _ _ _ _ _).mpr (markFailed_keeps hj fun r => ?_)
    cases r <;> exact hq

theorem fundingHandler_keeps {d : FundWalletDto} (hj : o.job? = some (.funding d))
    (hp : p.stage = .fresh) : (protocol o).wp (fundingHandler d) Finished p :=
  rethrow_keeps hj (guarded_keeps hj hp fun _ hq => fund_keeps hj hq)

theorem transferHandler_keeps {d : TransferWalletDto} (hj : o.job? = some (.transfer d))
    (hp : p.stage = .fresh) : (protocol o).wp (transferHandler d) Finished p :=
  rethrow_keeps hj (guarded_keeps hj hp fun _ hq => transfer_keeps hj hq)

/-- The withdrawal handler may return after a failure. -/
theorem withdrawalHandler_keeps {d : WithdrawWalletDto} (hj : o.job? = some (.withdrawal d))
    (hp : p.stage = .fresh) :
    (protocol o).wp (withdrawalHandler d)
      (fun r q => ∀ e, r = .error e → q.stage.holds = true) p := by
  refine (Monitor.wp_tryCatch _ _ _ _ _).mpr (Monitor.wp_mono _
    (guarded_keeps hj hp fun _ hq => withdraw_keeps hj hq) fun r q hq => ?_)
  cases r with
  | ok _ => exact nofun
  | error e => exact markFailed_keeps hj fun _ _ _ => hq

/-! ## The callback of a consumer -/

omit [Arithmetic] in
theorem Message.retryQueue_carriesJobs {m : Message} (h : m.queue.carriesJobs = true) :
    m.retryQueue.carriesJobs = true := by
  unfold retryQueue; split
  · rfl
  · exact h

/-- Publishing a job succeeds or is lost without a trace. -/
theorem publish_keeps {q data x} {Q : Except Err Unit → Local → Prop}
    (ha : o.Allows p (.rabbit (.sendToQueue q data x))) (hd : data.isJob = true)
    (hq : q.carriesJobs = true) (sent : Q (.ok ()) { p with stage := .sent })
    (lost : Q (.ok ()) { p with stage := .lost }) :
    (protocol o).wp (sendToQueue q data x) Q p := by
  refine (Monitor.wp_tryCatch _ _ _ _ _).mpr ((Monitor.wp_bind _ _ _ _ _).mpr ⟨trivial, ?_⟩)
  refine forall_except_unit.mpr ⟨⟨ha, forall_except_unit.mpr ⟨?_, fun _ => ?_⟩⟩, fun _ => ?_⟩
  · simpa [Monitor.wp, protocol, Local.next, hd] using sent
  · simpa [Monitor.wp, protocol, Local.next, hd] using lost
  · simpa [Monitor.wp, protocol, Local.next, hq] using lost

/-- The callback of a queue of jobs: a handler that throws is published again. -/
theorem consume_keeps {m : Message} {h : Proc Unit} {Q : Except Err Unit → Local → Prop}
    (hm : m.data = .job j) (hq : m.queue.carriesJobs = true)
    (hh : (protocol (.delivery m)).wp h (fun r q => match r with
      | .ok _ => Q r q
      | .error _ => q.stage.holds = true) p)
    (err : ∀ r (q : Local), q.stage = .sent ∨ q.stage = .lost → Q r q) :
    (protocol (.delivery m)).wp (consume m.queue h m) Q p := by
  refine (Monitor.wp_tryCatch _ _ _ _ _).mpr (Monitor.wp_mono _ hh fun r q hr => ?_)
  cases r with
  | ok _ => exact hr
  | error e =>
    have hd : m.data.isJob = true := by rw [hm]; rfl
    have retry : (protocol (.delivery m)).wp (do
        sendToQueue m.retryQueue m.data (some (m.attempts + 1))
        call (.rabbit (.ack m))) Q q := by
      refine (Monitor.wp_bind _ _ _ _ _).mpr (publish_keeps
        (.inr (.inr ⟨m, rfl, rfl, rfl, rfl, hr⟩)) hd (Message.retryQueue_carriesJobs hq) ?_ ?_)
      · exact (wp_still fun _ => rfl).mpr ⟨rfl, fun r => err r _ (.inl rfl)⟩
      · exact (wp_still fun _ => rfl).mpr ⟨rfl, fun r => err r _ (.inr rfl)⟩
    simp only [Message.retryQueue] at retry
    dsimp only
    split
    · next h2 => simpa only [h2, if_true] using retry
    · next h2 => simpa only [h2, if_false] using retry

/-- The callback of a queue of announcements. -/
theorem consume_announcement_keeps {m : Message} {h : Proc Unit} (hm : m.data.isJob = false)
    (hh : Maintains (.delivery m) (fun _ => True) h) :
    Maintains (.delivery m) (fun _ => True) (consume m.queue h m) := by
  have publish (q) : Maintains (.delivery m) (fun _ => True)
      (sendToQueue q m.data (some (m.attempts + 1))) :=
    .tryCatch (.bind (.free fun _ => trivial) fun _ => .free fun _ => .inl hm) fun _ => .pure _
  have ack : Maintains (.delivery m) (fun _ => True) (call (.rabbit (.ack m))) :=
    .still (fun _ => rfl) fun _ _ => rfl
  refine .tryCatch hh fun _ => ?_
  split
  · exact .bind (publish _) fun _ => ack
  · exact .bind (publish _) fun _ => ack

/-! ## The endpoints -/

section
variable {σ α : Type} {M : Monitor Op Op.Res Err σ} {Q : Except Err Reply → σ → Prop} {p : σ}

omit [Arithmetic] in
/-- The controller goes on only for the user the token was issued to. -/
theorem wp_validateTokenUser {u tok : Int} {c : Proc Reply} (he : ∀ e, Q (.error e) p)
    (h : u = tok → M.wp c Q p) : M.wp (do validateTokenUser u tok; c) Q p := by
  unfold validateTokenUser
  split
  · exact he _
  · next hu => exact h (not_not.mp hu)

omit [Arithmetic] in
/-- An endpoint that wraps what its service returns. -/
theorem wp_answer {c : Proc α} {f : α → Reply} {R : Except Err α → σ → Prop} (h : M.wp c R p)
    (hok : ∀ a q, R (.ok a) q → Q (.ok (f a)) q) (herr : ∀ e q, R (.error e) q → Q (.error e) q) :
    M.wp (do let a ← c; pure (f a)) Q p := by
  refine (Monitor.wp_bind _ _ _ _ _).mpr (Monitor.wp_mono _ h fun r q hr => ?_)
  cases r with
  | ok a => exact hok a q hr
  | error e => exact herr e q hr

end

section Endpoints
variable {tok : Int}

theorem createWallet_keeps (b : CreateWalletDto) :
    Maintains (.http tok (.createWallet b)) (fun _ => True)
      (WalletsService.createWallet b.userId b.currency b.txId) := by
  refine .bind (.free fun _ => .inl rfl) fun cached => ?_
  split
  · exact .throw _
  refine .bind (.free fun _ => trivial) fun existing => ?_
  unfold WalletsService.createUnlessRecorded
  split
  · exact .bind (.free fun _ => .inl rfl) fun _ => .throw _
  refine .bind (.free fun _ => trivial) fun found => ?_
  cases found with
  | some _ => exact .throw _
  | none =>
    refine .bind (.free fun _ => rfl) fun w => .bind (.free fun _ => .inr rfl) fun r =>
      .bind (.free fun _ => .inl rfl) fun _ => .bind (.announce rfl rfl) fun _ => ?_
    refine .bind (.bind (.free fun _ => trivial) fun cached => ?_) fun _ => .pure _
    cases cached with
    | none => exact .pure _
    | some _ => exact .free fun _ => trivial

theorem getUserWallets_keeps (u : Int) : Maintains o (fun _ => True)
    (WalletsService.getUserWallets u) := by
  refine .bind (.free fun _ => trivial) fun cached => ?_
  cases cached with
  | some _ => exact .pure _
  | none => exact .bind (.free fun _ => trivial) fun _ => .bind (.free fun _ => trivial) fun _ => .pure _

/-- What a money endpoint answers: `queued` only after its own job was published
or lost. -/
def Answers (o : Origin) (r : Except Err Reply) (q : Local) : Prop :=
  ∀ text j, r = .ok (.queued text j) → o.Asks j ∧ (q.stage = .sent ∨ q.stage = .lost)

omit [Arithmetic] in
theorem Answers.error {e q} : Answers o (.error e) q := fun _ _ h => by cases h

omit [Arithmetic] in
theorem Job.queue_carriesJobs (j : Job) : j.queue.carriesJobs = true := by cases j <;> rfl

/-- Publishing the job asked for and answering `queued`. -/
theorem enqueue_keeps (text : String) (ha : o.Asks j) (hp : p.stage = .fresh) :
    (protocol o).wp (do
      sendToQueue j.queue (.job j) none
      pure (Reply.queued text j)) (Answers o) p := by
  refine (Monitor.wp_bind _ _ _ _ _).mpr (publish_keeps
    (.inr (.inl ⟨j, ha, rfl, rfl, rfl, hp⟩)) rfl j.queue_carriesJobs ?_ ?_)
  · intro _ _ h; cases h; exact ⟨ha, .inl rfl⟩
  · intro _ _ h; cases h; exact ⟨ha, .inr rfl⟩

theorem fundWallet_keeps {b : FundWalletDto} (ho : o.job? = none) (ha : o.Asks (.funding b))
    (hp : p.stage = .fresh) :
    (protocol o).wp (WalletsService.fundWallet b) (Answers o) p := by
  refine (Monitor.wp_perform_bind _ _ _ _ _).mpr ⟨.inl ho, fun cached => ?_, fun _ => .error⟩
  cases cached with
  | some _ => exact nofun
  | none =>
    refine (Monitor.wp_perform_bind _ _ _ _ _).mpr ⟨trivial, fun existing => ?_, fun _ => .error⟩
    cases existing with
    | none => exact enqueue_keeps _ ha hp
    | some _ =>
      exact (Monitor.wp_perform_bind _ _ _ _ _).mpr ⟨.inl ho, fun _ => nofun, fun _ => .error⟩

theorem enqueueUnlessUsed_keeps {conflict queued} (ho : o.job? = none) (ha : o.Asks j)
    (hp : p.stage = .fresh) :
    (protocol o).wp (WalletsService.enqueueUnlessUsed conflict queued j) (Answers o) p := by
  refine (Monitor.wp_perform_bind _ _ _ _ _).mpr ⟨.inl ho, fun cached => ?_, fun _ => .error⟩
  split
  · exact Answers.error
  next unused =>
  refine (Monitor.wp_perform_bind _ _ _ _ _).mpr ⟨trivial, fun existing => ?_, fun _ => .error⟩
  cases existing with
  | none =>
    refine enqueue_keeps _ ha ?_
    cases cached with
    | none => exact hp
    | some v =>
      have pending : v.status.final = false := by
        rw [← Bool.not_eq_true, Status.final_iff]
        simpa using unused
      simpa [protocol, Local.next, pending] using hp
  | some _ =>
    exact (Monitor.wp_perform_bind _ _ _ _ _).mpr ⟨.inl ho, fun _ => Answers.error, fun _ => .error⟩

/-- An endpoint that answers something else than `queued`. -/
theorem answer_keeps {c : Proc α} {f : α → Reply} (h : Maintains o (fun _ => True) c)
    (hf : ∀ a text j, f a ≠ .queued text j) :
    (protocol o).wp (do let a ← c; pure (f a)) (Answers o) p :=
  wp_answer (h p trivial) (fun a _ _ text j he => absurd (Except.ok.inj he) (hf a text j))
    fun _ _ _ => Answers.error

theorem Request.program_keeps {r : Request} (hr : r.ofWallets = true) (hp : p.stage = .fresh) :
    (protocol (.http tok r)).wp (r.program tok) (Answers (.http tok r)) p := by
  cases r with
  | createWallet b =>
    exact wp_validateTokenUser (fun _ => Answers.error) fun _ => answer_keeps (createWallet_keeps b) (by simp)
  | fundWallet b =>
    exact wp_validateTokenUser (fun _ => Answers.error) fun hu => fundWallet_keeps rfl ⟨rfl, hu.symm⟩ hp
  | getUserWallets u =>
    exact wp_validateTokenUser (fun _ => Answers.error) fun _ => answer_keeps (getUserWallets_keeps u) (by simp)
  | withdrawFromWallet b =>
    exact wp_validateTokenUser (fun _ => Answers.error) fun hu => enqueueUnlessUsed_keeps rfl ⟨rfl, hu.symm⟩ hp
  | transferFunds b =>
    exact wp_validateTokenUser (fun _ => Answers.error) fun hu => enqueueUnlessUsed_keeps rfl ⟨rfl, hu.symm⟩ hp
  | _ => cases hr

end Endpoints

/-! ## Every thread -/

/-- The origins of the wallet side. -/
def Origin.ofWallets : Origin → Bool
  | http _ r => r.ofWallets
  | delivery m => (deliver m).isSome

/-- How a callback ends: that of a funding or of a transfer has skipped, has
committed, or has published its job again, unless that was lost. -/
def Settled (o : Origin) (q : Local) : Prop :=
  ∀ j, o.job? = some j → j.queue ≠ .walletWithdrawal →
    q.stage = .skipped ∨ q.stage = .committed ∨ q.stage = .sent ∨ q.stage = .lost

omit [Arithmetic] in
theorem Settled.ofStage {q : Local} (h : q.stage = .skipped ∨ q.stage = .committed ∨
    q.stage = .sent ∨ q.stage = .lost) : Settled o q := fun _ _ _ => h

theorem consume_handler_keeps {m : Message} {h : Proc Unit} (hm : m.data = .job j)
    (hq : m.queue = j.queue) (hh : (protocol (.delivery m)).wp h Finished p) :
    (protocol (.delivery m)).wp (consume m.queue h m) (fun _ => Settled (.delivery m)) p :=
  consume_keeps hm (hq ▸ j.queue_carriesJobs)
    (Monitor.wp_mono _ hh fun r _ hr => by
      cases r with
      | ok _ => exact .ofStage (hr.imp_right .inl)
      | error _ => exact hr)
    fun _ _ hs => .ofStage (.inr (.inr hs))

theorem deliver_keeps {m : Message} {c : Proc Unit} (h : deliver m = some c)
    (hp : p.stage = .fresh) :
    (protocol (.delivery m)).wp c (fun _ => Settled (.delivery m)) p := by
  have hjob {j} (hd : m.data = .job j) : (Origin.delivery m).job? = some j := by
    simp [Origin.job?, hd]
  have hnone (hd : m.data.isJob = false) : ∀ q, Settled (.delivery m) q := fun q j hj => by
    simp only [Origin.job?] at hj
    split at hj
    · next he => rw [he] at hd; cases hd
    · cases hj
  unfold deliver at h
  split at h
  · next d hq hd =>
    cases h; rw [← hq]
    exact consume_handler_keeps hd hq (fundingHandler_keeps (hjob hd) hp)
  · next d hq hd =>
    cases h; rw [← hq]
    refine consume_keeps hd (hq ▸ rfl) (Monitor.wp_mono _
      (withdrawalHandler_keeps (hjob hd) hp) fun r q hr => ?_) fun _ _ hs => .ofStage (.inr (.inr hs))
    cases r with
    | error e => exact hr e rfl
    | ok _ =>
      intro j hj hne
      rw [hjob hd] at hj; cases hj; exact absurd rfl hne
  · next d hq hd =>
    cases h; rw [← hq]
    exact consume_handler_keeps hd hq (transferHandler_keeps (hjob hd) hp)
  · next n hq hd =>
    have hf : m.data.isJob = false := by rw [hd]; rfl
    cases h; rw [← hq]
    refine Monitor.wp_mono _ (consume_announcement_keeps hf ?_ _ trivial) fun _ q _ => hnone hf q
    unfold notificationHandler
    split
    · exact .pure _
    · exact .tryCatch (.free fun _ => trivial) fun _ => .pure _
  · next l hq hd =>
    have hf : m.data.isJob = false := by rw [hd]; rfl
    cases h; rw [← hq]
    refine Monitor.wp_mono _ (consume_announcement_keeps hf ?_ _ trivial) fun _ q _ => hnone hf q
    unfold loginHandler
    exact .free fun _ => trivial
  · cases h

/-- Every thread of the wallet side keeps to the protocol, and ends as it says. -/
theorem Origin.program_keeps (h : o.ofWallets = true) :
    (protocol o).wp o.program (Ends o) o.first := by
  cases o with
  | http tok r =>
    exact Monitor.wp_mono _ (Request.program_keeps h rfl) fun _ _ hr => ⟨nofun, hr⟩
  | delivery m =>
    obtain ⟨c, hc⟩ := Option.isSome_iff_exists.mp h
    rw [Origin.program, hc]
    refine (Monitor.wp_bind _ _ _ _ _).mpr (Monitor.wp_mono _ (deliver_keeps hc rfl) fun r q hq => ?_)
    cases r <;> exact ⟨hq, by simp⟩

end Pactic
