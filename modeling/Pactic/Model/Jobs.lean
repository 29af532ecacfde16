import Pactic.Model.Numbers
import Pactic.Model.Rabbit

/-! # The processors

The handlers of the five queues. Those of the three wallet queues share their
first two steps, the Redis check and the pre-log, and differ in what they do
inside and after their `$transaction`. The withdrawal handler alone swallows the
error it has caught. -/
namespace Pactic
open FixedPoint Resumption

/-- Step 1: a cached final status ends the handler; any other entry is deleted. -/
def alreadyProcessed (txId : String) : Proc Bool := do
  match ← Redis.get (.walletRequest txId) with
  | none => pure false
  | some parsed =>
    if parsed.status = .success ∨ parsed.status = .failed then pure true
    else do
      Redis.del (.walletRequest txId)
      pure false

/-- Step 2: insert the request as pending; `false` when the txId is taken. -/
def preLog (userId : Int) (currency txId : String) : Proc Bool :=
  tryCatch (do
    let _ ← Prisma.walletRequestCreate ⟨userId, currency, txId, .pending⟩
    pure true)
  fun err => if err = .p2002 then pure false else throw err

/-- `!wallet || wallet.userId !== userId || wallet.currency !== currency ||
wallet.deletedAt`, the other way round. -/
def Wallet.ValidFor (w : Wallet) (userId : Int) (currency : String) : Prop :=
  w.userId = userId ∧ w.currency = currency ∧ w.deletedAt = none

instance (w : Wallet) (userId : Int) (currency : String) : Decidable (w.ValidFor userId currency) :=
  inferInstanceAs (Decidable (_ ∧ _ ∧ _))

def checkWallet (wallet : Option Wallet) (userId : Int) (currency message : String) :
    Proc Wallet :=
  match wallet with
  | none => throw (.business message)
  | some w => if w.ValidFor userId currency then pure w else throw (.business message)

/-- Put `row` at the front of a cached transaction list, if there is one. -/
def prependTransaction (userId : Int) (row : Option Transaction) : Proc Unit := do
  match ← Redis.get (.userTransactions userId) with
  | none => pure ()
  | some cached => Redis.set (.userTransactions userId) (row :: cached)

def notify (userId : Int) (title : String) (body : NotificationBody) : Proc Unit :=
  sendToQueue .notifications (.notification ⟨userId, title, body, "wallet"⟩) none

/-- The catch block: mark the request failed, whoever created it. -/
def markFailed (txId : String) : Proc Unit := do
  Prisma.walletRequestUpdateMany txId .failed
  Redis.set (.walletRequest txId) (.bare .failed)

section
variable [Arithmetic]

/-! ## Funding -/

/-- `parseFloat((amount * 0.005).toFixed(2))`, where `0.005` is a number too. -/
def fee (amount : ℚ) : ℚ :=
  toNumber (toFixed 2 (times amount (Arithmetic.round (5 / 1000))))

/-- `amount - fee`, a double with more digits than either at times. -/
def netAmount (amount : ℚ) : ℚ := minus amount (fee amount)

def fundingTransaction (d : FundWalletDto) : Proc Transaction := do
  match ← Tx.walletFindUnique d.walletId with
  | none => throw (.business "Wallet not found during processing.")
  | some currentWallet => do
    Tx.walletUpdate d.walletId currentWallet.version (netAmount d.amount)
      (currentWallet.version + 1)
    Tx.walletRequestUpdate d.txId .success
    let row : TransactionData := {
      userId := d.userId, walletId := d.walletId, type := .deposit
      amount := netAmount d.amount, fee := fee d.amount, reference := d.txId }
    let _ ← Tx.transactionCreate [row]
    pure row.store

/-- Steps 3 to 8: the wallet is validated before the `$transaction`, and only
looked up again inside. -/
def fund (d : FundWalletDto) : Proc Unit := do
  let wallet ← Prisma.walletFindUnique d.walletId
  let _ ← checkWallet wallet d.userId d.currency "❌ Wallet not valid or does not belong to user"
  let newTransaction ← Prisma.transaction (fundingTransaction d)
  Redis.set (.walletRequest d.txId) (.bare .success)
  prependTransaction d.userId (some newTransaction)
  notify d.userId "Wallet Funded" (.funded d.currency (netAmount d.amount) (fee d.amount))

def fundingHandler (d : FundWalletDto) : Proc Unit :=
  tryCatch (do
    if ← alreadyProcessed d.txId then pure ()
    else if ← preLog d.userId d.currency d.txId then fund d
    else pure ())
  fun error => do
    markFailed d.txId
    throw error

/-! ## Withdrawal -/

def withdrawalTransaction (d : WithdrawWalletDto) : Proc Transaction := do
  let wallet ← Tx.walletFindUnique d.walletId
  let wallet ← checkWallet wallet d.userId d.currency "Invalid wallet"
  if toNumber wallet.balance < d.amount then throw (.business "Insufficient funds")
  else do
    Tx.walletUpdate d.walletId wallet.version (-d.amount) (wallet.version + 1)
    Tx.walletRequestUpdate d.txId .success
    let row : TransactionData := {
      userId := d.userId, walletId := d.walletId, type := .withdrawal
      amount := d.amount, reference := d.txId }
    let _ ← Tx.transactionCreate [row]
    pure row.store

def withdraw (d : WithdrawWalletDto) : Proc Unit := do
  let transaction ← Prisma.transaction (withdrawalTransaction d)
  Redis.set (.walletRequest d.txId) (.bare .success)
  Redis.del (.userWallets d.userId)
  prependTransaction d.userId (some transaction)
  notify d.userId "Wallet Withdrawn" (.withdrawn d.amount d.currency)

/-- The catch block does not rethrow. -/
def withdrawalHandler (d : WithdrawWalletDto) : Proc Unit :=
  tryCatch (do
    if ← alreadyProcessed d.txId then pure ()
    else if ← preLog d.userId d.currency d.txId then withdraw d
    else pure ())
  fun _ => markFailed d.txId

/-! ## Transfer -/

def transferTransaction (d : TransferWalletDto) : Proc Unit := do
  let senderWallet ← Tx.walletFindUnique d.senderWalletId
  let recipientWallet ← Tx.walletFindUnique d.recipientWalletId
  let senderWallet ← checkWallet senderWallet d.senderId d.currency "Invalid sender wallet"
  let recipientWallet ←
    checkWallet recipientWallet d.recipientId d.currency "Invalid recipient wallet"
  if toNumber senderWallet.balance < d.amount then throw (.business "Insufficient funds")
  else do
    Tx.walletUpdate d.senderWalletId senderWallet.version (-d.amount) (senderWallet.version + 1)
    Tx.walletUpdate d.recipientWalletId recipientWallet.version d.amount
      (recipientWallet.version + 1)
    let _ ← Tx.transactionCreate [
      { userId := d.senderId, walletId := d.senderWalletId, type := .transfer
        amount := d.amount, reference := d.txId ++ "-sender"
        metadata := some (.to d.recipientWalletId) },
      { userId := d.recipientId, walletId := d.recipientWalletId, type := .deposit
        amount := d.amount, reference := d.txId ++ "-recipient"
        metadata := some (.from d.senderWalletId) }]
    Tx.walletRequestUpdate d.txId .success

def transfer (d : TransferWalletDto) : Proc Unit := do
  Prisma.transaction (transferTransaction d)
  Redis.set (.walletRequest d.txId) (.bare .success)
  let (senderTx, recipientTx) ← promiseAll (Prisma.transactionFindFirst (d.txId ++ "-sender"))
    (Prisma.transactionFindFirst (d.txId ++ "-recipient"))
  prependTransaction d.senderId senderTx
  prependTransaction d.recipientId recipientTx
  let _ ← promiseAll (Redis.del (.userWallets d.senderId)) (Redis.del (.userWallets d.recipientId))
  let _ ← promiseAll (notify d.senderId "Transfer Successful" (.sent d.amount d.recipientId))
    (notify d.recipientId "Wallet Credited" (.received d.amount d.senderId))
  pure ()

def transferHandler (d : TransferWalletDto) : Proc Unit :=
  tryCatch (do
    if ← alreadyProcessed d.txId then pure ()
    else if ← preLog d.senderId d.currency d.txId then transfer d
    else pure ())
  fun error => do
    markFailed d.txId
    throw error

/-! ## Notifications and login logs -/

/-- An incomplete payload and a failed insert are logged and dropped. The body
is never empty: every text has words of its own. -/
def notificationHandler (n : Notification) : Proc Unit :=
  if n.userId = 0 ∨ n.title = "" ∨ n.type = "" then pure ()
  else tryCatch (Prisma.notificationCreate n) fun _ => pure ()

def loginHandler (l : LoginAttempt) : Proc Unit :=
  Prisma.loginLogCreate ⟨l.userId, l.ipAddress, l.userAgent, l.location.getD ""⟩

/-- The consumer callback of a delivery. The queues are written by this service
alone, each with payloads of one kind, and nothing consumes the dead letters. -/
def deliver (m : Message) : Option (Proc Unit) :=
  match m.queue, m.data with
  | .walletFunding, .job (.funding d) => some (consume .walletFunding (fundingHandler d) m)
  | .walletWithdrawal, .job (.withdrawal d) =>
    some (consume .walletWithdrawal (withdrawalHandler d) m)
  | .walletTransfer, .job (.transfer d) => some (consume .walletTransfer (transferHandler d) m)
  | .notifications, .notification n => some (consume .notifications (notificationHandler n) m)
  | .loginLogs, .login l => some (consume .loginLogs (loginHandler l) m)
  | _, _ => none

end

theorem fee_exact (amount : ℚ) : fee amount = (Decimal.ofRat 2 (amount * (5 / 1000))).toRat := rfl

theorem netAmount_exact (amount : ℚ) : netAmount amount = amount - fee amount := rfl

end Pactic
