import Pactic.Model.Store

/-! # Calls, transactions and the message loop

The calls of the Redis, Prisma and RabbitMQ services as programs, Prisma's
interactive `$transaction`, and the two methods of the RabbitMQ service:
`sendToQueue`, which logs a failed publication and returns, and the callback
that `consume` registers, which retries a failed handler twice. -/
namespace Pactic
open Resumption

/-- One awaited call. -/
abbrev call (o : Op) : Proc o.Res := Prog.perform o

namespace Redis

def get (k : CacheKey) : Proc (Option k.Value) := call (.redis (.get k))
def set (k : CacheKey) (v : k.Value) : Proc Unit := call (.redis (.set k v))
def del (k : CacheKey) : Proc Unit := call (.redis (.del k))

end Redis

namespace Prisma

def walletRequestCreate (r : WalletRequest) : Proc WalletRequest :=
  call (.prisma (.walletRequestCreate r))
def walletRequestFindUnique (txId : String) : Proc (Option WalletRequest) :=
  call (.prisma (.walletRequestFindUnique txId))
def walletRequestUpdateMany (txId : String) (status : Status) : Proc Unit :=
  call (.prisma (.walletRequestUpdateMany txId status))
def walletFindUnique (id : Int) : Proc (Option Wallet) :=
  call (.prisma (.walletFindUnique id))
def walletFindFirst (userId : Int) (currency : String) : Proc (Option Wallet) :=
  call (.prisma (.walletFindFirst userId currency))
def walletFindMany (userId : Int) : Proc (List Wallet) :=
  call (.prisma (.walletFindMany userId))
def walletCreate (userId : Int) (currency : String) : Proc Wallet :=
  call (.prisma (.walletCreate userId currency))
def transactionFindFirst (reference : String) : Proc (Option Transaction) :=
  call (.prisma (.transactionFindFirst reference))
def notificationCreate (n : Notification) : Proc Unit :=
  call (.prisma (.notificationCreate n))
def loginLogCreate (l : LoginLog) : Proc Unit := call (.prisma (.loginLogCreate l))
def userFindFirst (email username : String) : Proc (Option User) :=
  call (.prisma (.userFindFirst email username))
def userFindByEmail (email : String) : Proc (Option User) :=
  call (.prisma (.userFindByEmail email))
def userFindById (id : Int) : Proc (Option User) := call (.prisma (.userFindById id))
def userUpsert (email username password : String) : Proc User :=
  call (.prisma (.userUpsert email username password))
def userUpdate (id : Int) (data : Option UserUpdate) : Proc User :=
  call (.prisma (.userUpdate id data))

/-- `$transaction`: a body that throws is rolled back and its error passed on. -/
def transaction {α : Type} (body : Proc α) : Proc α := do
  call (.tx .begin)
  let a ← tryCatch body fun e => do
    call (.tx .rollback)
    throw e
  call (.tx .commit)
  pure a

end Prisma

/-! ## Statements inside a `$transaction` -/

namespace Tx

def walletFindUnique (id : Int) : Proc (Option Wallet) :=
  call (.tx (.walletFindUnique id))
def walletUpdate (id version : Int) (increment : ℚ) (newVersion : Int) : Proc Unit :=
  call (.tx (.walletUpdate id version increment newVersion))
def walletRequestUpdate (txId : String) (status : Status) : Proc Unit :=
  call (.tx (.walletRequestUpdate txId status))
def transactionCreate (rows : List TransactionData) : Proc (List Transaction) :=
  call (.tx (.transactionCreate rows))

end Tx

/-- `Promise.all` of two calls, which the code issues at once and gives up on at
the first error. Here the second is issued when the first is answered, whatever
the answer, and is always awaited. -/
def promiseAll {α β : Type} (p : Proc α) (q : Proc β) : Proc (α × β) := do
  let a ← tryCatch (do let a ← p; pure (Except.ok a)) fun e => pure (.error e)
  let b ← tryCatch (do let b ← q; pure (Except.ok b)) fun e => pure (.error e)
  match a, b with
  | .ok a, .ok b => pure (a, b)
  | .error e, _ => throw e
  | .ok _, .error e => throw e

/-! ## The RabbitMQ service -/

/-- A failure is logged, not reported: the caller cannot tell. -/
def sendToQueue (queue : Queue) (data : Payload) (xAttempts : Option Nat) : Proc Unit :=
  tryCatch (do
    call (.rabbit (.assertQueue queue))
    call (.rabbit (.sendToQueue queue data xAttempts)))
  fun _ => pure ()

/-- The callback `consume` registers for `queue`. A handler that returns is not
acknowledged; one that throws is published again with one attempt more, or put
into the dead-letter queue after the third attempt, and acknowledged. -/
def consume (queue : Queue) (handler : Proc Unit) (msg : Message) : Proc Unit :=
  tryCatch handler fun _ =>
    if 2 ≤ msg.attempts then do
      sendToQueue .walletFundingDead msg.data (some (msg.attempts + 1))
      call (.rabbit (.ack msg))
    else do
      sendToQueue queue msg.data (some (msg.attempts + 1))
      call (.rabbit (.ack msg))

end Pactic
