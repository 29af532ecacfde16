import Pactic.Lib.Prog
import Pactic.Model.Data
import Mathlib.Data.List.Sort
import Mathlib.Logic.Function.Basic

/-! # Database, cache and broker

One `Shared` state holds what the handlers and the endpoints share. Every call
they await is one operation on it. A call may also fail, with or without having
taken effect; which answer an undetermined call gives is the caller's `Answer`.

An open `$transaction` keeps its writes to itself until it commits. Its reads
see any version of a wallet that was ever committed. An update of a wallet
checks the current row, locks it until the transaction ends, and waits while
another transaction holds the lock. -/
namespace Pactic
open FixedPoint Keyed Resumption

structure Db where
  users : Table User.id
  wallets : Table Wallet.id
  walletRequests : Table WalletRequest.txId
  transactions : Table Transaction.reference
  notifications : List Notification
  loginLogs : List LoginLog
  nextUserId : Int
  nextWalletId : Int
  now : Nat

/-- The uncommitted writes of an open `$transaction`. -/
structure Tx where
  wallets : List Wallet := []
  requests : List (String × Status) := []
  transactions : List Transaction := []

structure Broker where
  ready : List Message
  unacked : List Message
  sent : List Message
  nextTag : Nat

/-- The columns a `user.update` sets, and its nested relation writes as the
change they make to the database; `none` is a write that fails. -/
structure UserUpdate where
  id : Option Int := none
  email : Option String := none
  username : Option String := none
  password : Option String := none
  createdAt : Option Nat := none
  updatedAt : Option Nat := none
  deletedAt : Option (Option Nat) := none
  nested : Db → Option Db := some

/-- How the database client reads the data of an update of this user: what it
sets, or nothing where it refuses the data. -/
abbrev Client := Int → JsonObject → Option UserUpdate

/-! ## Operations -/

inductive RedisOp where
  | get (k : CacheKey)
  | set (k : CacheKey) (v : k.Value)
  | del (k : CacheKey)

inductive PrismaOp where
  | walletRequestCreate (r : WalletRequest)
  | walletRequestFindUnique (txId : String)
  | walletRequestUpdateMany (txId : String) (status : Status)
  | walletFindUnique (id : Int)
  | walletFindFirst (userId : Int) (currency : String)
  | walletFindMany (userId : Int)
  | walletCreate (userId : Int) (currency : String)
  | transactionFindFirst (reference : String)
  | notificationCreate (n : Notification)
  | loginLogCreate (l : LoginLog)
  | userFindFirst (email username : String)
  | userFindByEmail (email : String)
  | userFindById (id : Int)
  | userUpsert (email username password : String)
  | userUpdate (id : Int) (data : Option UserUpdate)

/-- `walletUpdate` is `update` where `{ id, version }` with `balance`
incremented and `version` set. -/
inductive TxOp where
  | begin
  | walletFindUnique (id : Int)
  | walletUpdate (id version : Int) (increment : ℚ) (newVersion : Int)
  | walletRequestUpdate (txId : String) (status : Status)
  | transactionCreate (rows : List TransactionData)
  | commit
  | rollback

inductive RabbitOp where
  | assertQueue (q : Queue)
  | sendToQueue (q : Queue) (data : Payload) (xAttempts : Option Nat)
  | ack (m : Message)

/-- Calls of libraries that are not part of the service, and the clock. -/
inductive LibraryOp where
  | hash (password : String)
  | compare (password hashed : String)
  | now

inductive Op where
  | redis (o : RedisOp)
  | prisma (o : PrismaOp)
  | tx (o : TxOp)
  | rabbit (o : RabbitOp)
  | library (o : LibraryOp)

@[reducible] def RedisOp.Res : RedisOp → Type
  | get k => Option k.Value
  | set _ _ => Unit
  | del _ => Unit

@[reducible] def PrismaOp.Res : PrismaOp → Type
  | walletRequestCreate _ => WalletRequest
  | walletRequestFindUnique _ => Option WalletRequest
  | walletRequestUpdateMany _ _ => Unit
  | walletFindUnique _ => Option Wallet
  | walletFindFirst _ _ => Option Wallet
  | walletFindMany _ => List Wallet
  | walletCreate _ _ => Wallet
  | transactionFindFirst _ => Option Transaction
  | notificationCreate _ => Unit
  | loginLogCreate _ => Unit
  | userFindFirst _ _ => Option User
  | userFindByEmail _ => Option User
  | userFindById _ => Option User
  | userUpsert _ _ _ => User
  | userUpdate _ _ => User

@[reducible] def TxOp.Res : TxOp → Type
  | walletFindUnique _ => Option Wallet
  | transactionCreate _ => List Transaction
  | _ => Unit

@[reducible] def LibraryOp.Res : LibraryOp → Type
  | hash _ => String
  | compare _ _ => Bool
  | now => Nat

@[reducible] def Op.Res : Op → Type
  | redis o => o.Res
  | prisma o => o.Res
  | tx o => o.Res
  | rabbit _ => Unit
  | library o => o.Res

abbrev Proc := Prog Op Op.Res Err

/-! ## Where threads come from -/

/-- A request that passed the token guard and the body validation. -/
inductive Request where
  | createWallet (body : CreateWalletDto)
  | fundWallet (body : FundWalletDto)
  | getUserWallets (userId : Int)
  | withdrawFromWallet (body : WithdrawWalletDto)
  | transferFunds (body : TransferWalletDto)
  | signup (body : CreateUserDto)
  | login (body : LoginUserDto) (ip userAgent : String)
  | getProfile (userId : Int)
  | updateProfile (body : JsonObject) (client : Client)
  | deleteUser (userId : Int)

/-- `http` carries the user id of the token, `delivery` the message. -/
inductive Origin where
  | http (tokenUserId : Int) (request : Request)
  | delivery (message : Message)

def Origin.job? : Origin → Option Job
  | delivery m => match m.data with
    | .job j => some j
    | _ => none
  | http _ _ => none

/-- What the journal notes of the database, in the order it happened. -/
inductive Event where
  | requestCreated (txId : String)
  | walletCreated (w : Wallet)
  | committed (j : Job)
  | signupChecked (email : String)
  | signedUp (email : String)
  deriving DecidableEq

/-- The journal, `versions` and `Broker.sent` are not part of the service: they
record what happened, and no program reads them except that a stale read
returns an old version and a redelivery an old message. -/
structure Entry where
  thread : Nat
  origin : Origin
  event : Event

structure Shared where
  db : Db
  versions : List Wallet
  txs : Nat → Option Tx
  locks : Int → Option Nat
  redis : (k : CacheKey) → Option k.Value
  broker : Broker
  journal : List Entry

/-- What a call leaves open: which row a query picks, what a library returns. -/
structure Answer where
  pick : Nat := 0
  text : String := ""
  flag : Bool := false

/-- A call answers, fails, or takes effect and fails all the same. -/
inductive Choice where
  | ok (a : Answer)
  | fail
  | failAfter (a : Answer)

/-! ## Effects -/

def RedisOp.run : (o : RedisOp) → ((k : CacheKey) → Option k.Value) →
    ((k : CacheKey) → Option k.Value) × o.Res
  | get k, r => (r, r k)
  | set k v, r => (Function.update r k (some v), ())
  | del k, r => (Function.update r k none, ())

def RabbitOp.run : RabbitOp → Broker → Broker
  | assertQueue _, b => b
  | sendToQueue q data x, b =>
    let m : Message := ⟨q, data, x, b.nextTag⟩
    { b with ready := b.ready ++ [m], sent := b.sent ++ [m], nextTag := b.nextTag + 1 }
  | ack m, b => { b with unacked := b.unacked.erase m }

def LibraryOp.run (a : Answer) (now : Nat) : (o : LibraryOp) → o.Res
  | hash _ => a.text
  | compare _ _ => a.flag
  | LibraryOp.now => now

def Shared.note (sh : Shared) (i : Nat) (o : Origin) (e : Event) : Shared :=
  { sh with journal := sh.journal ++ [⟨i, o, e⟩] }

def UserUpdate.apply (d : UserUpdate) (now : Nat) (u : User) : User where
  id := d.id.getD u.id
  email := d.email.getD u.email
  username := d.username.getD u.username
  password := d.password.getD u.password
  createdAt := d.createdAt.getD u.createdAt
  updatedAt := d.updatedAt.getD now
  deletedAt := d.deletedAt.getD u.deletedAt

/-- Two users never share an email. -/
def Db.emailTaken (db : Db) (u : User) : Bool :=
  db.users.rows.any fun v => v.id ≠ u.id && v.email = u.email

/-- A user id `a` where the owner was renumbered from `id` to `b`. -/
def cascade (id b a : Int) : Int := if a = id then b else a

/-- Replace the row of user `id`; the new row may carry another id, which the
foreign keys follow (`ON UPDATE CASCADE`). -/
def Db.replaceUser (db : Db) (id : Int) (u : User) : Option Db :=
  if db.emailTaken { u with id := id } then none
  else if u.id = id then some { db with users := db.users.put u }
  else (db.users.insert? u).map fun users => { db with
    users := users.erase id
    wallets := db.wallets.mapRows (fun w => { w with userId := cascade id u.id w.userId })
      fun _ => rfl
    transactions := db.transactions.mapRows
      (fun t => { t with userId := cascade id u.id t.userId }) fun _ => rfl
    notifications := db.notifications.map fun n => { n with userId := cascade id u.id n.userId } }

/-- Set the status of a request, if its row exists. -/
def setStatus (t : Table WalletRequest.txId) (x : String × Status) : Table WalletRequest.txId :=
  match t.find? x.1 with
  | some r => t.put { r with status := x.2 }
  | none => t

/-- The statements outside a `$transaction`, each on its own. `none` is an
answer the database cannot give. Strings are compared exactly, where the
columns have the collation `utf8mb4_unicode_ci`, and wallets of one `createdAt`
are listed in the order of the table, where MySQL is free to choose. -/
def PrismaOp.run (a : Answer) (i : Nat) (org : Origin) :
    (o : PrismaOp) → Shared → Option (Shared × Except Err o.Res)
  | walletRequestCreate r, sh => match sh.db.walletRequests.insert? r with
    | some t => some ({ sh with db.walletRequests := t }.note i org (.requestCreated r.txId), .ok r)
    | none => some (sh, .error .p2002)
  | walletRequestFindUnique t, sh => some (sh, .ok (sh.db.walletRequests.find? t))
  | walletRequestUpdateMany t s, sh =>
    some ({ sh with db.walletRequests := setStatus sh.db.walletRequests (t, s) }, .ok ())
  | walletFindUnique id, sh => some (sh, .ok (sh.db.wallets.find? id))
  | walletFindFirst u c, sh => some (sh, .ok (sh.db.wallets.rows.find? fun w =>
      w.userId = u ∧ w.currency = c ∧ w.deletedAt = none))
  | walletFindMany u, sh => some (sh, .ok
      ((sh.db.wallets.rows.filter fun w => w.userId = u ∧ w.deletedAt = none).insertionSort
        fun v w => w.createdAt ≤ v.createdAt))
  | walletCreate u c, sh =>
    if sh.db.wallets.rows.any fun w => w.userId = u ∧ w.currency = c then some (sh, .error .p2002)
    else
      let w : Wallet := ⟨sh.db.nextWalletId, u, 0, c, 0, sh.db.now, none⟩
      match sh.db.wallets.insert? w with
      | some t => some ({ sh with
          db.wallets := t, db.nextWalletId := sh.db.nextWalletId + 1,
          versions := sh.versions ++ [w] }.note i org (.walletCreated w), .ok w)
      | none => some (sh, .error .p2002)
  | transactionFindFirst r, sh => some (sh, .ok (sh.db.transactions.find? r))
  | notificationCreate n, sh =>
    some ({ sh with db.notifications := sh.db.notifications ++ [n] }, .ok ())
  | loginLogCreate l, sh => some ({ sh with db.loginLogs := sh.db.loginLogs ++ [l] }, .ok ())
  | userFindFirst e n, sh =>
    match sh.db.users.rows.filter fun u => u.email = e ∨ u.username = n with
    | [] => some (sh.note i org (.signupChecked e), .ok none)
    | us => us[a.pick]?.map fun u => (sh.note i org (.signupChecked e), .ok (some u))
  | userFindByEmail e, sh => some (sh, .ok (sh.db.users.rows.find? fun u => u.email = e))
  | userFindById id, sh => some (sh, .ok (sh.db.users.find? id))
  | userUpsert e n p, sh => match sh.db.users.rows.find? fun u => u.email = e with
    | some u =>
      let u' := { u with username := n, password := p, updatedAt := sh.db.now, deletedAt := none }
      some ({ sh with db.users := sh.db.users.put u' }.note i org (.signedUp e), .ok u')
    | none =>
      let u : User := ⟨sh.db.nextUserId, e, n, p, sh.db.now, sh.db.now, none⟩
      match sh.db.users.insert? u with
      | some t => some ({ sh with
          db.users := t, db.nextUserId := sh.db.nextUserId + 1 }.note i org (.signedUp e), .ok u)
      | none => some (sh, .error .p2002)
  | userUpdate _ none, sh => some (sh, .error .invalidData)
  | userUpdate id (some d), sh => match sh.db.users.find? id with
    | none => some (sh, .error .p2025)
    | some u =>
      let u' := d.apply sh.db.now u
      match (sh.db.replaceUser id u').bind d.nested with
      | some db => some ({ sh with db := db, versions := sh.versions ++ db.wallets.rows }, .ok u')
      | none => some (sh, .error .p2002)

/-- Drop the session of thread `i`: its writes and its locks. -/
def Shared.rollback (sh : Shared) (i : Nat) : Shared :=
  { sh with
    txs := Function.update sh.txs i none
    locks := fun id => if sh.locks id = some i then none else sh.locks id }

/-- All writes of the session take effect at once. A reference that a
concurrent session has committed in the meantime fails the whole commit. -/
def Shared.commit (sh : Shared) (i : Nat) (org : Origin) (tx : Tx) :
    Shared × Except Err Unit :=
  match tx.transactions.foldlM Table.insert? sh.db.transactions with
  | none => (sh.rollback i, .error .p2002)
  | some ledger =>
    let sh' := { sh with
      db.wallets := tx.wallets.foldl Table.put sh.db.wallets
      db.walletRequests := tx.requests.foldl setStatus sh.db.walletRequests
      db.transactions := ledger
      versions := sh.versions ++ tx.wallets }.rollback i
    (match org.job? with
      | some j => sh'.note i org (.committed j)
      | none => sh', .ok ())

/-- The row an update in the session of `tx` works on: its own version if it
wrote one, else the committed row. -/
def Shared.current (sh : Shared) (tx : Tx) (id : Int) : Option Wallet :=
  (tx.wallets.find? fun w => w.id = id).or (sh.db.wallets.find? id)

/-- The statements of an open session. `none` means that the call waits for a
lock, or that the thread has no session. -/
def TxOp.run (a : Answer) (i : Nat) (org : Origin) :
    (o : TxOp) → Shared → Option (Shared × Except Err o.Res)
  | begin, sh => some ({ sh with txs := Function.update sh.txs i (some {}) }, .ok ())
  | walletFindUnique id, sh => match sh.txs i with
    | none => none
    | some _ => some (sh, .ok (sh.versions.filter fun w => w.id = id)[a.pick]?)
  | walletUpdate id version inc newVersion, sh => match sh.txs i with
    | none => none
    | some tx => match sh.locks id with
      | some j => if j = i then write id version inc newVersion tx sh else none
      | none => write id version inc newVersion tx sh
  | walletRequestUpdate t s, sh => match sh.txs i with
    | none => none
    | some tx => match sh.db.walletRequests.find? t with
      | none => some (sh, .error .p2025)
      | some _ =>
        let tx' := { tx with requests := tx.requests ++ [(t, s)] }
        some ({ sh with txs := Function.update sh.txs i (some tx') }, .ok ())
  | transactionCreate rows, sh => match sh.txs i with
    | none => none
    | some tx =>
      let stored := rows.map TransactionData.store
      match (tx.transactions ++ stored).foldlM Table.insert? sh.db.transactions with
      | none => some (sh, .error .p2002)
      | some _ =>
        let tx' := { tx with transactions := tx.transactions ++ stored }
        some ({ sh with txs := Function.update sh.txs i (some tx') }, .ok stored)
  | commit, sh => (sh.txs i).map fun tx => sh.commit i org tx
  | rollback, sh => some (sh.rollback i, .ok ())
where
  write (id version : Int) (inc : ℚ) (newVersion : Int) (tx : Tx) (sh : Shared) :
      Option (Shared × Except Err Unit) :=
    match sh.current tx id with
    | none => some (sh, .error .p2025)
    | some w =>
      if w.version = version then
        let w' := { w with balance := .ofRat 4 (w.balance.toRat + inc), version := newVersion }
        let tx' := { tx with wallets := (tx.wallets.filter fun v => v.id ≠ id) ++ [w'] }
        some ({ sh with
          txs := Function.update sh.txs i (some tx')
          locks := Function.update sh.locks id (some i) }, .ok ())
      else some (sh, .error .p2025)

def Op.run (a : Answer) (i : Nat) (org : Origin) :
    (o : Op) → Shared → Option (Shared × Except Err o.Res)
  | redis o, sh =>
    let r := o.run sh.redis
    some ({ sh with redis := r.1 }, .ok r.2)
  | prisma o, sh => o.run a i org sh
  | tx o, sh => o.run a i org sh
  | rabbit o, sh => some ({ sh with broker := o.run sh.broker }, .ok ())
  | library o, sh => some (sh, .ok (o.run a sh.db.now))

/-- What a call that failed without effect leaves behind: the end of a session
that cannot be reached is a rollback. -/
def Op.fail (i : Nat) : Op → Shared → Shared
  | tx .commit, sh => sh.rollback i
  | tx .rollback, sh => sh.rollback i
  | _, sh => sh

def exec : Choice → Nat → Origin → (o : Op) → Shared → Option (Shared × Except Err o.Res)
  | .ok a, i, org, o, sh => o.run a i org sh
  | .fail, i, _, o, sh => some (o.fail i sh, .error .unavailable)
  | .failAfter a, i, org, o, sh => (o.run a i org sh).map fun r => (r.1, .error .unavailable)

end Pactic
