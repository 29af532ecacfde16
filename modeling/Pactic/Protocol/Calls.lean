import Pactic.Protocol.Conform

/-! # What the programs call at all

A handler reads and writes the database and the cache and announces what it has
done. Only the callback around it acknowledges its message or publishes a job,
and only the endpoints that take a job publish one, too. Logins and lookups
leave the database as it is. -/
namespace Pactic
open Resumption

/-- A call that ends the care for a job: publishing it, trying to, or an
acknowledgement. -/
def Op.handsOn : Op → Bool
  | .rabbit (.assertQueue q) => q.carriesJobs
  | .rabbit (.sendToQueue _ data _) => data.isJob
  | .rabbit (.ack _) => true
  | _ => false

/-- The calls of a handler around its `$transaction` that write no row. -/
def Op.minor : Op → Bool
  | .redis (.set (.userWallets _) _) | .redis (.set (.userProfile _) _) => false
  | .redis _ => true
  | .prisma (.walletFindUnique _) | .prisma (.transactionFindFirst _) => true
  | .rabbit o => !(Op.rabbit o).handsOn
  | _ => false

/-- The statements of a session, without its beginning and its end. -/
def Op.statement : Op → Bool
  | .tx .begin | .tx .commit | .tx .rollback => false
  | .tx _ => true
  | _ => false

/-- The calls of the handlers. -/
def Op.ofHandler : Op → Bool
  | .prisma (.walletRequestCreate _) | .prisma (.walletRequestUpdateMany _ _)
  | .prisma (.notificationCreate _) | .prisma (.loginLogCreate _) => true
  | .tx _ => true
  | o => o.minor

/-- The calls of a lookup. -/
def Op.reads : Op → Bool
  | .redis _ => true
  | .prisma (.walletRequestFindUnique _) | .prisma (.walletFindUnique _)
  | .prisma (.walletFindFirst _ _) | .prisma (.walletFindMany _)
  | .prisma (.transactionFindFirst _) | .prisma (.userFindByEmail _)
  | .prisma (.userFindById _) => true
  | .prisma _ => false
  | .tx _ => false
  | .rabbit o => !(Op.rabbit o).handsOn
  | .library _ => true

theorem Op.ofHandler_of_minor {op : Op} (h : op.minor = true) : op.ofHandler = true := by
  cases op with
  | prisma op => cases op <;> first | rfl | cases h
  | tx op => rfl
  | _ => exact h

theorem Op.ofHandler_of_statement {op : Op} (h : op.statement = true) : op.ofHandler = true := by
  cases op with
  | tx op => rfl
  | _ => cases h

theorem Op.handsOn_of_ofHandler {op : Op} (h : op.ofHandler = true) : op.handsOn = false := by
  cases op with
  | rabbit op => simpa [ofHandler, minor] using h
  | _ => rfl

theorem Op.handsOn_of_reads {op : Op} (h : op.reads = true) : op.handsOn = false := by
  cases op with
  | rabbit op => simpa [reads] using h
  | _ => rfl

abbrev HandlerCalls {α : Type} (c : Proc α) : Prop := c.Only fun op => op.ofHandler = true
abbrev MinorCalls {α : Type} (c : Proc α) : Prop := c.Only fun op => op.minor = true
abbrev Statements {α : Type} (c : Proc α) : Prop := c.Only fun op => op.statement = true

section
variable {α β : Type}

theorem promiseAll_only {c : Proc α} {d : Proc β} {P : Op → Prop} (hc : c.Only P)
    (hd : d.Only P) : (promiseAll c d).Only P := by
  refine .bind (.tryCatch (.bind hc fun _ => trivial) fun _ => trivial) fun a => ?_
  refine .bind (.tryCatch (.bind hd fun _ => trivial) fun _ => trivial) fun b => ?_
  cases a with
  | error e => trivial
  | ok a => cases b with
    | error e => trivial
    | ok b => trivial

theorem alreadyProcessed_calls (t : String) : MinorCalls (alreadyProcessed t) := by
  refine .bind (.perform rfl) fun cached => ?_
  cases cached with
  | none => trivial
  | some parsed =>
    dsimp only
    split
    · trivial
    · exact .bind (.perform rfl) fun _ => trivial

theorem preLog_calls (u c t) : HandlerCalls (preLog u c t) := by
  refine .tryCatch (.bind (.perform rfl) fun _ => trivial) fun err => ?_
  split <;> trivial

theorem markFailed_calls (t : String) : HandlerCalls (markFailed t) :=
  .bind (.perform rfl) fun _ => .perform rfl

theorem checkWallet_only {P : Op → Prop} (w u c m) : (checkWallet w u c m).Only P := by
  cases w with
  | none => trivial
  | some w => simp only [checkWallet]; split <;> trivial

theorem prependTransaction_calls (u row) : MinorCalls (prependTransaction u row) := by
  refine .bind (.perform rfl) fun cached => ?_
  cases cached with
  | none => trivial
  | some _ => exact .perform rfl

theorem notify_calls (u t b) : MinorCalls (notify u t b) :=
  .tryCatch (.bind (.perform rfl) fun _ => .perform rfl) fun _ => trivial

theorem fundingTransaction_calls (d : FundWalletDto) : Statements (fundingTransaction d) := by
  refine .bind (.perform rfl) fun w => ?_
  cases w with
  | none => trivial
  | some w =>
    exact .bind (.perform rfl) fun _ => .bind (.perform rfl) fun _ =>
      .bind (.perform rfl) fun _ => trivial

theorem withdrawalTransaction_calls (d : WithdrawWalletDto) :
    Statements (withdrawalTransaction d) := by
  refine .bind (.perform rfl) fun _ => .bind (checkWallet_only _ _ _ _) fun w => ?_
  split
  · trivial
  · exact .bind (.perform rfl) fun _ => .bind (.perform rfl) fun _ =>
      .bind (.perform rfl) fun _ => trivial

theorem transferTransaction_calls (d : TransferWalletDto) : Statements (transferTransaction d) := by
  refine .bind (.perform rfl) fun _ => .bind (.perform rfl) fun _ =>
    .bind (checkWallet_only _ _ _ _) fun _ => .bind (checkWallet_only _ _ _ _) fun _ => ?_
  split
  · trivial
  · exact .bind (.perform rfl) fun _ => .bind (.perform rfl) fun _ =>
      .bind (.perform rfl) fun _ => .perform rfl

/-- What a deposit still does once it is committed. -/
theorem funded_calls (d : FundWalletDto) (row : Transaction) : MinorCalls (do
    Redis.set (.walletRequest d.txId) (.bare .success)
    prependTransaction d.userId (some row)
    notify d.userId "Wallet Funded" (.funded d.currency (netAmount d.amount) (fee d.amount))) :=
  .bind (.perform rfl) fun _ => .bind (prependTransaction_calls _ _) fun _ => notify_calls _ _ _

theorem withdrawn_calls (d : WithdrawWalletDto) (row : Transaction) : MinorCalls (do
    Redis.set (.walletRequest d.txId) (.bare .success)
    Redis.del (.userWallets d.userId)
    prependTransaction d.userId (some row)
    notify d.userId "Wallet Withdrawn" (.withdrawn d.amount d.currency)) :=
  .bind (.perform rfl) fun _ => .bind (.perform rfl) fun _ =>
    .bind (prependTransaction_calls _ _) fun _ => notify_calls _ _ _

theorem transferred_calls (d : TransferWalletDto) : MinorCalls (do
    Redis.set (.walletRequest d.txId) (.bare .success)
    let (senderTx, recipientTx) ← promiseAll (Prisma.transactionFindFirst (d.txId ++ "-sender"))
      (Prisma.transactionFindFirst (d.txId ++ "-recipient"))
    prependTransaction d.senderId senderTx
    prependTransaction d.recipientId recipientTx
    let _ ← promiseAll (Redis.del (.userWallets d.senderId)) (Redis.del (.userWallets d.recipientId))
    let _ ← promiseAll (notify d.senderId "Transfer Successful" (.sent d.amount d.recipientId))
      (notify d.recipientId "Wallet Credited" (.received d.amount d.senderId))
    pure ()) :=
  .bind (.perform rfl) fun _ => .bind (promiseAll_only (.perform rfl) (.perform rfl)) fun _ =>
    .bind (prependTransaction_calls _ _) fun _ => .bind (prependTransaction_calls _ _) fun _ =>
    .bind (promiseAll_only (.perform rfl) (.perform rfl)) fun _ =>
    .bind (promiseAll_only (notify_calls _ _ _) (notify_calls _ _ _)) fun _ => trivial

/-- A `$transaction` with minor calls around it. -/
theorem transaction_calls {body : Proc α} {rest : α → Proc β} (h : Statements body)
    (hr : ∀ a, MinorCalls (rest a)) : HandlerCalls (do
      let a ← Prisma.transaction body
      rest a) :=
  .bind (.bind (.perform rfl) fun _ => .bind (.tryCatch (h.mono fun _ => Op.ofHandler_of_statement)
    fun _ => .bind (.perform rfl) fun _ => trivial) fun _ => .bind (.perform rfl) fun _ => trivial)
    fun a => (hr a).mono fun _ => Op.ofHandler_of_minor

theorem fund_calls (d : FundWalletDto) : HandlerCalls (fund d) :=
  .bind (.perform rfl) fun _ => .bind (checkWallet_only _ _ _ _) fun _ =>
    transaction_calls (fundingTransaction_calls d) (funded_calls d)

theorem withdraw_calls (d : WithdrawWalletDto) : HandlerCalls (withdraw d) :=
  transaction_calls (withdrawalTransaction_calls d) (withdrawn_calls d)

theorem transfer_calls (d : TransferWalletDto) : HandlerCalls (transfer d) :=
  transaction_calls (transferTransaction_calls d) fun _ => transferred_calls d

/-- The part the three handlers share, around the part `c` of each. -/
theorem guarded_calls {c : Proc Unit} (h : HandlerCalls c) (u cur t) : HandlerCalls (do
    if ← alreadyProcessed t then pure ()
    else if ← preLog u cur t then c
    else pure ()) := by
  refine .bind ((alreadyProcessed_calls t).mono fun _ => Op.ofHandler_of_minor) fun skip => ?_
  cases skip with
  | true => trivial
  | false =>
    refine .bind (preLog_calls u cur t) fun mine => ?_
    cases mine with
    | true => exact h
    | false => trivial

theorem fundingHandler_calls (d : FundWalletDto) : HandlerCalls (fundingHandler d) :=
  .tryCatch (guarded_calls (fund_calls d) _ _ _)
    fun _ => .bind (markFailed_calls _) fun _ => trivial

theorem withdrawalHandler_calls (d : WithdrawWalletDto) : HandlerCalls (withdrawalHandler d) :=
  .tryCatch (guarded_calls (withdraw_calls d) _ _ _) fun _ => markFailed_calls _

theorem transferHandler_calls (d : TransferWalletDto) : HandlerCalls (transferHandler d) :=
  .tryCatch (guarded_calls (transfer_calls d) _ _ _)
    fun _ => .bind (markFailed_calls _) fun _ => trivial

theorem notificationHandler_calls (n : Notification) : HandlerCalls (notificationHandler n) := by
  unfold notificationHandler
  split
  · trivial
  · exact .tryCatch (.perform rfl) fun _ => trivial

end

/-! ## Lookups -/

theorem getUserWallets_reads (u : Int) :
    (WalletsService.getUserWallets u).Only fun op => op.reads = true := by
  refine .bind (.perform rfl) fun cached => ?_
  cases cached with
  | some _ => trivial
  | none => exact .bind (.perform rfl) fun _ => .bind (.perform rfl) fun _ => trivial

theorem getProfile_reads (u : Int) :
    (UsersService.getProfile u).Only fun op => op.reads = true := by
  refine .bind (.perform rfl) fun cached => ?_
  cases cached with
  | some _ => trivial
  | none =>
    refine .bind (.perform rfl) fun found => ?_
    cases found with
    | none => trivial
    | some u => exact .bind (.perform rfl) fun _ => trivial

theorem login_reads (b : LoginUserDto) (ip ua : String) :
    (UsersService.login b ip ua).Only fun op => op.reads = true := by
  have announce (l) : (sendToQueue .loginLogs (.login l) none).Only fun op => op.reads = true :=
    .tryCatch (.bind (.perform rfl) fun _ => .perform rfl) fun _ => trivial
  refine .bind (.perform rfl) fun found => ?_
  cases found with
  | none => exact .bind trivial fun _ => .bind (announce _) fun _ => trivial
  | some u =>
    refine .bind (.perform rfl) fun ok => .bind (announce _) fun _ => ?_
    dsimp only
    split
    · trivial
    · split <;> trivial

/-- The handler of a job. -/
def Job.handler : Job → Proc Unit
  | funding d => fundingHandler d
  | withdrawal d => withdrawalHandler d
  | transfer d => transferHandler d

/-- A delivery runs a handler inside the callback of its queue; a job waits in
its own queue and is run by its own handler. -/
theorem deliver_eq_consume {m : Message} {c : Proc Unit} (h : deliver m = some c) :
    ∃ handler, c = consume m.queue handler m ∧ HandlerCalls handler ∧
      ∀ j, m.data = .job j → m.queue = j.queue ∧ handler = j.handler := by
  have other {j} {P : Prop} (hd : m.data.isJob = false) (hj : m.data = .job j) : P := by
    rw [hj] at hd; cases hd
  unfold deliver at h
  split at h
  · next d hq hd =>
    cases h
    refine ⟨fundingHandler d, by rw [hq], fundingHandler_calls d, fun j hj => ?_⟩
    rw [hd] at hj; cases hj; exact ⟨hq, rfl⟩
  · next d hq hd =>
    cases h
    refine ⟨withdrawalHandler d, by rw [hq], withdrawalHandler_calls d, fun j hj => ?_⟩
    rw [hd] at hj; cases hj; exact ⟨hq, rfl⟩
  · next d hq hd =>
    cases h
    refine ⟨transferHandler d, by rw [hq], transferHandler_calls d, fun j hj => ?_⟩
    rw [hd] at hj; cases hj; exact ⟨hq, rfl⟩
  · next n hq hd =>
    cases h
    exact ⟨notificationHandler n, by rw [hq], notificationHandler_calls n,
      fun j => other (by rw [hd]; rfl)⟩
  · next l hq hd =>
    cases h
    exact ⟨loginHandler l, by rw [hq], .perform rfl, fun j => other (by rw [hd]; rfl)⟩
  · cases h

end Pactic
