import Pactic.Lib.Decimal
import Pactic.Lib.Table

/-! # Rows, request bodies and messages

The columns and fields the wallet code reads or writes. JavaScript numbers are
told by the rationals they stand for: ids that are not integers and amounts that
are not finite are refused by the DTO validators or by the database client before
they matter.
JSON is kept for the one body that no validator looks at; elsewhere it is left
out, since what is parsed was printed here or has passed a validator. -/
namespace Pactic
open FixedPoint Keyed

/-! ## Rows of the database -/

inductive Status where
  | pending | success | failed
  deriving DecidableEq

inductive TransactionType where
  | deposit | withdrawal | transfer
  deriving DecidableEq

structure User where
  id : Int
  email : String
  username : String
  password : String
  createdAt : Nat
  updatedAt : Nat
  deletedAt : Option Nat
  deriving DecidableEq

/-- A user row without its password. -/
structure PublicUser where
  id : Int
  email : String
  username : String
  createdAt : Nat
  updatedAt : Nat
  deletedAt : Option Nat
  deriving DecidableEq

def User.withoutPassword (u : User) : PublicUser :=
  ⟨u.id, u.email, u.username, u.createdAt, u.updatedAt, u.deletedAt⟩

/-- `balance` is a DECIMAL(20,4) column. -/
structure Wallet where
  id : Int
  userId : Int
  balance : Decimal 4
  currency : String
  version : Int
  createdAt : Nat
  deletedAt : Option Nat
  deriving DecidableEq

inductive Metadata where
  | to (walletId : Int)
  | from (walletId : Int)
  deriving DecidableEq

/-- A row of the ledger; `reference` is unique. -/
structure Transaction where
  walletId : Int
  userId : Int
  type : TransactionType
  amount : Decimal 4
  fee : Decimal 4
  status : Status
  reference : String
  metadata : Option Metadata
  deriving DecidableEq

structure WalletRequest where
  userId : Int
  currency : String
  txId : String
  status : Status
  deriving DecidableEq

/-- The texts of the notifications, their arguments not yet printed. -/
inductive NotificationBody where
  | created (currency : String)
  | funded (currency : String) (netAmount fee : ℚ)
  | withdrawn (amount : ℚ) (currency : String)
  | sent (amount : ℚ) (recipientId : Int)
  | received (amount : ℚ) (senderId : Int)
  deriving DecidableEq

structure Notification where
  userId : Int
  title : String
  body : NotificationBody
  type : String
  deriving DecidableEq

structure LoginLog where
  userId : Option Int
  ipAddress : String
  userAgent : String
  location : String
  deriving DecidableEq

/-- What a transaction row is created from; storing it rounds both amounts. -/
structure TransactionData where
  walletId : Int
  userId : Int
  type : TransactionType
  amount : ℚ
  fee : ℚ := 0
  status : Status := .success
  reference : String
  metadata : Option Metadata := none

def TransactionData.store (d : TransactionData) : Transaction where
  walletId := d.walletId
  userId := d.userId
  type := d.type
  amount := .ofRat 4 d.amount
  fee := .ofRat 4 d.fee
  status := d.status
  reference := d.reference
  metadata := d.metadata

/-! ## Request bodies -/

structure CreateWalletDto where
  userId : Int
  currency : String
  txId : String
  deriving DecidableEq

structure FundWalletDto where
  userId : Int
  walletId : Int
  currency : String
  amount : ℚ
  txId : String
  deriving DecidableEq

structure WithdrawWalletDto where
  userId : Int
  walletId : Int
  amount : ℚ
  currency : String
  txId : String
  deriving DecidableEq

structure TransferWalletDto where
  senderId : Int
  senderWalletId : Int
  recipientId : Int
  recipientWalletId : Int
  amount : ℚ
  currency : String
  txId : String
  deriving DecidableEq

structure CreateUserDto where
  email : String
  username : String
  password : String
  deriving DecidableEq

structure LoginUserDto where
  email : String
  password : String
  deriving DecidableEq

/-- `@IsString() @IsNotEmpty()` on the currency and the txId. -/
def CreateWalletDto.Valid (b : CreateWalletDto) : Prop := b.currency ≠ "" ∧ b.txId ≠ ""

/-- The amount carries `@IsNumber()` only. -/
def FundWalletDto.Valid (b : FundWalletDto) : Prop := b.currency ≠ "" ∧ b.txId ≠ ""

/-- The amount carries `@Min(0.01)`. -/
def WithdrawWalletDto.Valid (b : WithdrawWalletDto) : Prop :=
  1 / 100 ≤ b.amount ∧ b.currency ≠ "" ∧ b.txId ≠ ""

/-- The amount carries `@Min(0.01)`. -/
def TransferWalletDto.Valid (b : TransferWalletDto) : Prop :=
  1 / 100 ≤ b.amount ∧ b.currency ≠ "" ∧ b.txId ≠ ""

/-- `@IsEmail()` is not modelled: it only looks at the address, which the
service never takes apart. `@MinLength(6)` leaves variation selectors out of
its count, so it refuses some passwords that are six characters long here. -/
def CreateUserDto.Valid (b : CreateUserDto) : Prop := b.username ≠ "" ∧ 6 ≤ b.password.length

def LoginUserDto.Valid (b : LoginUserDto) : Prop := b.password ≠ ""

instance (b : CreateWalletDto) : Decidable b.Valid := inferInstanceAs (Decidable (_ ∧ _))
instance (b : FundWalletDto) : Decidable b.Valid := inferInstanceAs (Decidable (_ ∧ _))
instance (b : WithdrawWalletDto) : Decidable b.Valid := inferInstanceAs (Decidable (_ ∧ _ ∧ _))
instance (b : TransferWalletDto) : Decidable b.Valid := inferInstanceAs (Decidable (_ ∧ _ ∧ _))
instance (b : CreateUserDto) : Decidable b.Valid := inferInstanceAs (Decidable (_ ∧ _))
instance (b : LoginUserDto) : Decidable b.Valid := inferInstanceAs (Decidable (_ ≠ _))

inductive Json where
  | null
  | bool (b : Bool)
  | num (n : ℚ)
  | str (s : String)
  | arr (items : List Json)
  | obj (fields : List (String × Json))

/-- A parsed object; a key is there once. -/
abbrev JsonObject := Table (Prod.fst : String × Json → String)

/-! ## Messages -/

inductive Queue where
  | walletFunding | walletWithdrawal | walletTransfer | notifications | loginLogs
  | walletFundingDead
  deriving DecidableEq

/-- A job that moves money, as the wallet service enqueues it. -/
inductive Job where
  | funding (data : FundWalletDto)
  | withdrawal (data : WithdrawWalletDto)
  | transfer (data : TransferWalletDto)
  deriving DecidableEq

def Job.txId : Job → String
  | funding d => d.txId
  | withdrawal d => d.txId
  | transfer d => d.txId

def Job.queue : Job → Queue
  | funding _ => .walletFunding
  | withdrawal _ => .walletWithdrawal
  | transfer _ => .walletTransfer

structure LoginAttempt where
  userId : Option Int
  email : String
  ipAddress : String
  userAgent : String
  location : Option String
  success : Bool
  deriving DecidableEq

inductive Payload where
  | job (j : Job)
  | notification (n : Notification)
  | login (l : LoginAttempt)
  deriving DecidableEq

/-- A message as the broker holds it. `tag` tells two publications of the same
content apart. -/
structure Message where
  queue : Queue
  data : Payload
  xAttempts : Option Nat
  tag : Nat
  deriving DecidableEq

/-- `headers['x-attempts'] || 0` -/
def Message.attempts (m : Message) : Nat := m.xAttempts.getD 0

/-! ## The cache -/

/-- The keys in use. A constructor stands for a prefix of the key strings:
`wallet_request:`, `user_wallets:`, `user:transactions:` and `user:profile:`.
None of these begins another, and what follows is the printed argument alone. -/
inductive CacheKey where
  | walletRequest (txId : String)
  | userWallets (userId : Int)
  | userTransactions (userId : Int)
  | userProfile (userId : Int)
  deriving DecidableEq

/-- The JSON under a `wallet_request:` key: a bare `{ status }` from the
processors, a whole row from the wallet service. -/
inductive CachedRequest where
  | bare (status : Status)
  | row (r : WalletRequest)
  deriving DecidableEq

def CachedRequest.status : CachedRequest → Status
  | bare s => s
  | row r => r.status

/-- The selected columns; `updatedAt` is selected by `updateProfile` only. -/
structure Profile where
  id : Int
  email : String
  username : String
  createdAt : Nat
  updatedAt : Option Nat
  deriving DecidableEq

@[reducible] def CacheKey.Value : CacheKey → Type
  | walletRequest _ => CachedRequest
  | userWallets _ => List Wallet
  | userTransactions _ => List (Option Transaction)
  | userProfile _ => Profile

/-! ## Errors and replies -/

inductive Err where
  | p2002                            -- a unique constraint failed
  | p2025                            -- no row matched
  | invalidData                      -- the database client refused the data
  | unavailable                      -- a Redis, database or broker call failed
  | business (message : String)      -- `new Error(message)` in a processor
  | conflict (message : String)
  | unauthorized (message : String)
  | badRequest (message : String)
  | crashed                          -- the process died here
  deriving DecidableEq

/-- What a token carries: `{ sub, email }`. -/
structure Token where
  sub : Int
  email : String
  deriving DecidableEq

/-- What an endpoint answers; a consumer callback answers `done`. -/
inductive Reply where
  | done
  | wallet (w : Wallet)
  | wallets (ws : List Wallet)
  | queued (message : String) (job : Job)
  | duplicate (message : String) (data : CachedRequest)
  | user (u : PublicUser)
  | login (u : PublicUser) (token : Token)
  | profile (p : Option Profile)
  | deleted (id : Int) (email username : String) (deletedAt : Option Nat)
  deriving DecidableEq

end Pactic
