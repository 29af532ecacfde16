import Pactic.Book.Spec
import Pactic.Model.System

/-! # The protocol of the wallet threads

What a thread of the wallet endpoints or of a processor may call at each point,
read off its own past: whether it inserted the request row, which wallet rows
it has seen, and how far its `$transaction` has come. The programs are shown to
keep to it; the invariants use nothing else about them. -/
namespace Pactic
open Resumption

variable [Arithmetic]

/-- `sent` and `lost` concern the job the thread publishes. -/
inductive Stage where
  | fresh                                             -- no request row inserted
  | skipped                                           -- the txId was taken
  | owner                                             -- inserted the row, no session
  | session (written : Nat) (logged marked : Bool)
  | broken                                            -- a statement of the session failed
  | committed
  | over                                              -- nothing can be committed any more
  | sent
  | lost
  deriving DecidableEq

/-- The thread still answers for its job: it has neither found it taken nor
handed it on. -/
def Stage.holds : Stage → Bool
  | skipped | sent | lost => false
  | _ => true

/-- `seen` pairs the rows read with the id they were looked up by. -/
structure Local where
  stage : Stage
  seen : List (Int × Wallet)

def Job.payer : Job → Int
  | funding d => d.userId
  | withdrawal d => d.userId
  | transfer d => d.senderId

def Job.currency : Job → String
  | funding d => d.currency
  | withdrawal d => d.currency
  | transfer d => d.currency

def Job.pending (j : Job) : WalletRequest := ⟨j.payer, j.currency, j.txId, .pending⟩

/-- The job a request enqueues. -/
def Request.job? : Request → Option Job
  | fundWallet b => some (.funding b)
  | withdrawFromWallet b => some (.withdrawal b)
  | transferFunds b => some (.transfer b)
  | _ => none

/-- The job a thread may enqueue: that of a request sent with the payer's token. -/
def Origin.Asks : Origin → Job → Prop
  | http tokenUserId r, j => r.job? = some j ∧ tokenUserId = j.payer
  | delivery _, _ => False

/-- The row `createWallet` records. -/
def Origin.records? : Origin → Option WalletRequest
  | http _ (.createWallet b) => some ⟨b.userId, b.currency, b.txId, .success⟩
  | _ => none

/-- What a leg needs of the rows seen before it is written on version `v`: one
with the right owner, and one of this version that covers a debit. -/
def Leg.Seen (l : Leg) (seen : List (Int × Wallet)) (v : Int) : Prop :=
  (∃ w, (l.walletId, w) ∈ seen ∧ w.ValidFor l.userId l.currency) ∧
  ∃ w, (l.walletId, w) ∈ seen ∧ w.version = v ∧
    (l.covered = true → -l.increment ≤ toNumber w.balance)

/-- Where a failed delivery goes. -/
def Message.retryQueue (m : Message) : Queue :=
  if 2 ≤ m.attempts then .walletFundingDead else m.queue

def Payload.isJob : Payload → Bool
  | job _ => true
  | _ => false

/-- The calls a wallet thread may make. -/
def Origin.Allows (o : Origin) (p : Local) : Op → Prop
  | .redis (.get (.walletRequest t)) => o.job? = none ∨ ∃ j, o.job? = some j ∧ t = j.txId ∧ p.stage = .fresh
  | .redis (.set (.walletRequest t) v) => o.job? = none ∨ ∃ j, o.job? = some j ∧ t = j.txId ∧
      (v = .bare .failed ∨ v = .bare .success ∧ p.stage = .committed)
  | .redis (.del (.walletRequest t)) => ∃ j, o.job? = some j ∧ t = j.txId ∧ p.stage = .fresh
  | .redis _ => True
  | .prisma (.walletRequestCreate r) => (∃ j, o.job? = some j ∧ r = j.pending ∧ p.stage = .fresh) ∨
      o.records? = some r
  | .prisma (.walletRequestUpdateMany t s) => s = .failed ∧ ∃ j, o.job? = some j ∧ t = j.txId
  | .prisma (.walletCreate _ _) => o.records?.isSome
  | .prisma (.userFindFirst _ _) | .prisma (.userFindByEmail _) | .prisma (.userFindById _)
  | .prisma (.userUpsert _ _ _) | .prisma (.userUpdate _ _) => False
  | .prisma _ => True
  | .tx .begin => o.job?.isSome ∧ p.stage = .owner
  | .tx (.walletFindUnique _) => p.stage = .session 0 false false
  | .tx (.walletUpdate id v inc nv) => ∃ j n l lg md, o.job? = some j ∧ p.stage = .session n lg md ∧
      j.legs[n]? = some l ∧ id = l.walletId ∧ inc = l.increment ∧ nv = v + 1 ∧ l.Seen p.seen v
  | .tx (.walletRequestUpdate t s) => ∃ j n lg, o.job? = some j ∧ p.stage = .session n lg false ∧
      t = j.txId ∧ s = .success
  | .tx (.transactionCreate rows) => ∃ j n md, o.job? = some j ∧ p.stage = .session n false md ∧
      rows = j.rows
  | .tx .commit => ∃ j, o.job? = some j ∧ p.stage = .session j.legs.length true true
  | .tx .rollback => p.stage.holds = true
  | .rabbit (.assertQueue _) => True
  | .rabbit (.sendToQueue q data x) => data.isJob = false ∨
      (∃ j, o.Asks j ∧ data = .job j ∧ q = j.queue ∧ x = none ∧ p.stage = .fresh) ∨
      ∃ m, o = .delivery m ∧ data = m.data ∧ x = some (m.attempts + 1) ∧ q = m.retryQueue ∧
        p.stage.holds = true
  | .rabbit (.ack m) => o = .delivery m
  | .library _ => False

def Status.final : Status → Bool
  | .pending => false
  | _ => true

/-- Failing to announce a notification does not matter to a job. -/
def Queue.carriesJobs : Queue → Bool
  | notifications | loginLogs => false
  | _ => true

def Local.next (p : Local) : (o : Op) → Except Err o.Res → Local
  | .redis (.get (.walletRequest _)), .ok (some v) =>
    if v.status.final then { p with stage := .skipped } else p
  | .prisma (.walletRequestCreate _), .ok _ => { p with stage := .owner }
  | .prisma (.walletRequestCreate _), .error e =>
    { p with stage := if e = .p2002 then .skipped else .over }
  | .prisma (.walletFindUnique id), .ok (some w) => { p with seen := (id, w) :: p.seen }
  | .tx .begin, .ok _ => { p with stage := .session 0 false false }
  | .tx .begin, .error _ => { p with stage := .over }
  | .tx (.walletFindUnique id), .ok (some w) => { p with seen := (id, w) :: p.seen }
  | .tx (.walletFindUnique _), .ok none => p
  | .tx (.walletUpdate _ _ _ _), .ok _ => match p.stage with
    | .session n lg md => { p with stage := .session (n + 1) lg md }
    | _ => p
  | .tx (.walletRequestUpdate _ _), .ok _ => match p.stage with
    | .session n lg _ => { p with stage := .session n lg true }
    | _ => p
  | .tx (.transactionCreate _), .ok _ => match p.stage with
    | .session n _ md => { p with stage := .session n true md }
    | _ => p
  | .tx .commit, .ok _ => { p with stage := .committed }
  | .tx .commit, .error _ => { p with stage := .over }
  | .tx .rollback, _ => { p with stage := .over }
  | .tx _, .error _ => { p with stage := .broken }
  | .rabbit (.assertQueue q), .error _ => if q.carriesJobs then { p with stage := .lost } else p
  | .rabbit (.sendToQueue _ data _), .ok _ => if data.isJob then { p with stage := .sent } else p
  | .rabbit (.sendToQueue _ data _), .error _ => if data.isJob then { p with stage := .lost } else p
  | _, _ => p

def protocol (o : Origin) : Monitor Op Op.Res Err Local := ⟨o.Allows, Local.next⟩

def Origin.first (_ : Origin) : Local := ⟨.fresh, []⟩

/-- How a thread can end: a funding or transfer callback that neither skipped
nor committed has published its job again, or tried to. A request answers
`queued` after publishing its job, or trying to. -/
structure Ends (o : Origin) (r : Except Err Reply) (p : Local) : Prop where
  settled : ∀ j, o.job? = some j → j.queue ≠ .walletWithdrawal →
    p.stage = .skipped ∨ p.stage = .committed ∨ p.stage = .sent ∨ p.stage = .lost
  queued : ∀ text j, r = .ok (.queued text j) → o.Asks j ∧ (p.stage = .sent ∨ p.stage = .lost)

end Pactic
