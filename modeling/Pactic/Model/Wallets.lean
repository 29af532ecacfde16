import Pactic.Model.Rabbit

/-! # The wallet endpoints

The wallet service and its controller. The three money endpoints only look the
txId up and enqueue a job; `createWallet` inserts the wallet itself. -/
namespace Pactic
open Resumption

def validateTokenUser (requestUserId tokenUserId : Int) : Proc Unit :=
  if requestUserId ≠ tokenUserId then throw (.unauthorized "Invalid token for this user")
  else pure ()

namespace WalletsService

/-- Step 8 of `createWallet`: put the new wallet on top of the cached list. -/
def prependWallet (userId : Int) (wallet : Wallet) : Proc Unit := do
  match ← Redis.get (.userWallets userId) with
  | none => pure ()
  | some parsed => Redis.set (.userWallets userId) (wallet :: parsed)

/-- Steps 4 to 8 of `createWallet`. -/
def insertWallet (userId : Int) (currency txId : String) : Proc Wallet := do
  let wallet ← Prisma.walletCreate userId currency
  let walletRequest ← Prisma.walletRequestCreate ⟨userId, currency, txId, .success⟩
  Redis.set (.walletRequest txId) (.row walletRequest)
  sendToQueue .notifications
    (.notification ⟨userId, "Wallet Created", .created currency, "wallet"⟩) none
  prependWallet userId wallet
  pure wallet

/-- Steps 2 and 3 of `createWallet`, on the request row found. -/
def createUnlessRecorded (userId : Int) (currency txId : String)
    (existingRequest : Option WalletRequest) : Proc Wallet := do
  match existingRequest.filter fun r => r.status = .success with
  | some r => do
    Redis.set (.walletRequest txId) (.row r)
    throw (.conflict "Duplicate wallet creation request")
  | none => do
    match ← Prisma.walletFindFirst userId currency with
    | some _ => throw (.conflict ("You already have a " ++ currency ++ " wallet"))
    | none => insertWallet userId currency txId

def createWallet (userId : Int) (currency txId : String) : Proc Wallet := do
  match (← Redis.get (.walletRequest txId)).filter fun r => r.status = .success with
  | some _ => throw (.conflict "Duplicate wallet creation request (cached)")
  | none => do
    let existingRequest ← Prisma.walletRequestFindUnique txId
    createUnlessRecorded userId currency txId existingRequest

/-- Any cached entry is a duplicate, whatever its status. -/
def fundWallet (body : FundWalletDto) : Proc Reply := do
  match ← Redis.get (.walletRequest body.txId) with
  | some cached => pure (.duplicate "This transaction ID has already been used." cached)
  | none => do
    match ← Prisma.walletRequestFindUnique body.txId with
    | some existing => do
      Redis.set (.walletRequest body.txId) (.row existing)
      pure (.duplicate "This transaction ID has already been used." (.row existing))
    | none => do
      sendToQueue .walletFunding (.job (.funding body)) none
      pure (.queued "Wallet funding has been queued and is being processed." (.funding body))

/-- The lookup of withdrawals and transfers: a cached final status or a row of
any status is a conflict; otherwise the job is enqueued. -/
def enqueueUnlessUsed (conflict queued : String) (job : Job) : Proc Reply := do
  match (← Redis.get (.walletRequest job.txId)).filter
      fun r => r.status = .success ∨ r.status = .failed with
  | some _ => throw (.conflict conflict)
  | none => do
    match ← Prisma.walletRequestFindUnique job.txId with
    | some existing => do
      Redis.set (.walletRequest job.txId) (.row existing)
      throw (.conflict conflict)
    | none => do
      sendToQueue job.queue (.job job) none
      pure (.queued queued job)

def withdrawFromWallet (body : WithdrawWalletDto) : Proc Reply :=
  enqueueUnlessUsed "This transaction ID has already been used"
    "Wallet withdrawal has been queued and is being processed." (.withdrawal body)

def transferFunds (body : TransferWalletDto) : Proc Reply :=
  enqueueUnlessUsed "Duplicate transfer request"
    "Wallet transfer has been queued and is being processed." (.transfer body)

def getUserWallets (userId : Int) : Proc (List Wallet) := do
  match ← Redis.get (.userWallets userId) with
  | some cached => pure cached
  | none => do
    let wallets ← Prisma.walletFindMany userId
    Redis.set (.userWallets userId) wallets
    pure wallets

end WalletsService

namespace WalletsController

def createWallet (body : CreateWalletDto) (tokenUserId : Int) : Proc Reply := do
  validateTokenUser body.userId tokenUserId
  let wallet ← WalletsService.createWallet body.userId body.currency body.txId
  pure (.wallet wallet)

def fundWallet (body : FundWalletDto) (tokenUserId : Int) : Proc Reply := do
  validateTokenUser body.userId tokenUserId
  WalletsService.fundWallet body

def getUserWallets (userId tokenUserId : Int) : Proc Reply := do
  validateTokenUser userId tokenUserId
  let wallets ← WalletsService.getUserWallets userId
  pure (.wallets wallets)

def withdrawFromWallet (body : WithdrawWalletDto) (tokenUserId : Int) : Proc Reply := do
  validateTokenUser body.userId tokenUserId
  WalletsService.withdrawFromWallet body

def transferFunds (body : TransferWalletDto) (tokenUserId : Int) : Proc Reply := do
  validateTokenUser body.senderId tokenUserId
  WalletsService.transferFunds body

end WalletsController
end Pactic
