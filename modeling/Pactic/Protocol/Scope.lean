import Pactic.Protocol.Calls

/-! # What a program may publish, store and cache

A request publishes, stores and caches for the user of its token, a delivery for
the users its message names, and each under its own txId. -/
namespace Pactic
open Resumption

/-- The queue that payloads of this kind are published to. -/
def Payload.queue : Payload → Queue
  | job j => j.queue
  | notification _ => .notifications
  | login _ => .loginLogs

/-- The users whose wallets a job is about. -/
def Job.parties (j : Job) : List Int := j.legs.map Leg.userId

/-- `users` has those to be notified and to be given a wallet, `caches` the keys to
be written or deleted, `jobs` those to be asked for, and `logins` says whether
login attempts are dealt with. -/
structure Scope where
  logins : Prop
  jobs : Job → Prop
  users : Int → Prop
  caches : CacheKey → Prop

def Payload.KeepsTo (a : Scope) : Payload → Prop
  | job j => a.jobs j
  | notification n => a.users n.userId
  | login _ => a.logins

/-- A call that stays in the scope, acknowledges nothing and publishes nothing a
second time. -/
def Op.KeepsTo (a : Scope) : Op → Prop
  | .rabbit (.sendToQueue q data x) => q = data.queue ∧ x = none ∧ data.KeepsTo a
  | .rabbit (.ack _) => False
  | .prisma (.notificationCreate n) => a.users n.userId
  | .prisma (.loginLogCreate _) => a.logins
  | .prisma (.walletCreate u _) => a.users u
  | .redis (.set k _) => a.caches k
  | .redis (.del k) => a.caches k
  | _ => True

abbrev Scoped {α : Type} (a : Scope) (c : Proc α) : Prop := c.Only (Op.KeepsTo a)

/-- What a job is for. -/
def Job.scope (j : Job) : Scope where
  logins := False
  jobs _ := False
  users v := v ∈ j.parties
  caches
    | .walletRequest t => t = j.txId
    | .userWallets v => v ∈ j.parties
    | .userTransactions v => v ∈ j.parties
    | .userProfile _ => False

def Payload.scope : Payload → Scope
  | job j => j.scope
  | notification n => ⟨False, fun _ => False, fun v => v = n.userId, fun _ => False⟩
  | login _ => ⟨True, fun _ => False, fun _ => False, fun _ => False⟩

/-- The request carries this txId. -/
def Request.Names (r : Request) (t : String) : Prop :=
  (∃ b, r = .createWallet b ∧ b.txId = t) ∨ ∃ j, r.job? = some j ∧ j.txId = t

def Request.isLogin : Request → Bool
  | login _ _ _ => true
  | _ => false

/-- What a request with this token may do. -/
def Request.scope (r : Request) (tok : Int) : Scope where
  logins := r.isLogin = true
  jobs j := r.job? = some j ∧ j.payer = tok
  users v := v = tok
  caches
    | .walletRequest t => r.Names t
    | .userWallets v => v = tok
    | .userTransactions _ => False
    | .userProfile v => v = tok

section
variable {α : Type} {a : Scope}

theorem sendToQueue_scoped {data : Payload} (h : data.KeepsTo a) :
    Scoped a (sendToQueue data.queue data none) :=
  .tryCatch (.bind (.perform trivial) fun _ => .perform ⟨rfl, rfl, h⟩) fun _ => trivial

theorem notify_scoped {u t b} (h : a.users u) : Scoped a (notify u t b) := by
  have own : (Payload.notification ⟨u, t, b, "wallet"⟩).KeepsTo a := h
  exact sendToQueue_scoped own

theorem prependTransaction_scoped {u row} (h : a.caches (.userTransactions u)) :
    Scoped a (prependTransaction u row) := by
  refine .bind (.perform trivial) fun cached => ?_
  cases cached with
  | none => trivial
  | some _ => exact .perform h

theorem statements_scoped {c : Proc α} (h : Statements c) : Scoped a c := by
  refine h.mono fun op hop => ?_
  cases op with
  | tx op => trivial
  | _ => cases hop

theorem transaction_scoped {body : Proc α} (h : Statements body) :
    Scoped a (Prisma.transaction body) :=
  .bind (.perform trivial) fun _ => .bind (.tryCatch (statements_scoped h)
    fun _ => .bind (.perform trivial) fun _ => trivial) fun _ => .bind (.perform trivial) fun _ => trivial

/-! ## The handlers -/

theorem fund_scoped (d : FundWalletDto) : Scoped (Job.funding d).scope (fund d) :=
  .bind (.perform trivial) fun _ => .bind (checkWallet_only _ _ _ _) fun _ =>
    .bind (transaction_scoped (fundingTransaction_calls d)) fun _ =>
    .bind (.perform rfl) fun _ => .bind (prependTransaction_scoped (.head _)) fun _ =>
    notify_scoped (.head _)

theorem withdraw_scoped (d : WithdrawWalletDto) : Scoped (Job.withdrawal d).scope (withdraw d) :=
  .bind (transaction_scoped (withdrawalTransaction_calls d)) fun _ =>
    .bind (.perform rfl) fun _ => .bind (.perform (.head _)) fun _ =>
    .bind (prependTransaction_scoped (.head _)) fun _ => notify_scoped (.head _)

theorem transfer_scoped (d : TransferWalletDto) : Scoped (Job.transfer d).scope (transfer d) := by
  have sender : d.senderId ∈ (Job.transfer d).parties := .head _
  have recipient : d.recipientId ∈ (Job.transfer d).parties := .tail _ (.head _)
  exact .bind (transaction_scoped (transferTransaction_calls d)) fun _ =>
    .bind (.perform rfl) fun _ =>
    .bind (promiseAll_only (.perform trivial) (.perform trivial)) fun _ =>
    .bind (prependTransaction_scoped sender) fun _ =>
    .bind (prependTransaction_scoped recipient) fun _ =>
    .bind (promiseAll_only (.perform sender) (.perform recipient)) fun _ =>
    .bind (promiseAll_only (notify_scoped sender) (notify_scoped recipient)) fun _ => trivial

theorem alreadyProcessed_scoped {t : String} (ht : a.caches (.walletRequest t)) :
    Scoped a (alreadyProcessed t) := by
  refine .bind (.perform trivial) fun cached => ?_
  cases cached with
  | none => trivial
  | some parsed =>
    dsimp only
    split
    · trivial
    · exact .bind (.perform ht) fun _ => trivial

theorem preLog_scoped {u cur t} : Scoped a (preLog u cur t) := by
  refine .tryCatch (.bind (.perform trivial) fun _ => trivial) fun err => ?_
  split <;> trivial

theorem guarded_scoped {c : Proc Unit} {u cur t} (ht : a.caches (.walletRequest t))
    (h : Scoped a c) : Scoped a (do
      if ← alreadyProcessed t then pure ()
      else if ← preLog u cur t then c
      else pure ()) := by
  refine .bind (alreadyProcessed_scoped ht) fun skip => ?_
  cases skip with
  | true => trivial
  | false =>
    refine .bind preLog_scoped fun mine => ?_
    cases mine with
    | true => exact h
    | false => trivial

theorem markFailed_scoped {t : String} (ht : a.caches (.walletRequest t)) : Scoped a (markFailed t) :=
  .bind (.perform trivial) fun _ => .perform ht

theorem Job.handler_scoped (j : Job) : Scoped j.scope j.handler := by
  cases j with
  | funding d =>
    exact .tryCatch (guarded_scoped rfl (fund_scoped d))
      fun _ => .bind (markFailed_scoped rfl) fun _ => trivial
  | withdrawal d =>
    exact .tryCatch (guarded_scoped rfl (withdraw_scoped d)) fun _ => markFailed_scoped rfl
  | transfer d =>
    exact .tryCatch (guarded_scoped rfl (transfer_scoped d))
      fun _ => .bind (markFailed_scoped rfl) fun _ => trivial

theorem notificationHandler_scoped (n : Notification) :
    Scoped (Payload.notification n).scope (notificationHandler n) := by
  unfold notificationHandler
  split
  · trivial
  · exact .tryCatch (.perform rfl) fun _ => trivial

/-- The handler in the callback of a delivery keeps to what its message is about. -/
theorem deliver_scoped {m : Message} {c : Proc Unit} (h : deliver m = some c) :
    ∃ handler, c = consume m.queue handler m ∧ Scoped m.data.scope handler := by
  unfold deliver at h
  split at h
  · next d hq hd =>
    cases h
    exact ⟨fundingHandler d, by rw [hq], hd ▸ Job.handler_scoped (.funding d)⟩
  · next d hq hd =>
    cases h
    exact ⟨withdrawalHandler d, by rw [hq], hd ▸ Job.handler_scoped (.withdrawal d)⟩
  · next d hq hd =>
    cases h
    exact ⟨transferHandler d, by rw [hq], hd ▸ Job.handler_scoped (.transfer d)⟩
  · next n hq hd =>
    cases h
    exact ⟨notificationHandler n, by rw [hq], hd ▸ notificationHandler_scoped n⟩
  · next l hq hd =>
    cases h
    have records : Scoped (Payload.login l).scope (loginHandler l) := .perform trivial
    exact ⟨loginHandler l, by rw [hq], hd ▸ records⟩
  · cases h

/-! ## The endpoints -/

theorem fundWallet_scoped {b : FundWalletDto} (ht : a.caches (.walletRequest b.txId))
    (hj : a.jobs (.funding b)) :
    Scoped a (WalletsService.fundWallet b) := by
  refine .bind (.perform trivial) fun cached => ?_
  cases cached with
  | some _ => trivial
  | none =>
    refine .bind (.perform trivial) fun existing => ?_
    cases existing with
    | some _ => exact .bind (.perform ht) fun _ => trivial
    | none =>
      have queued : (Payload.job (.funding b)).KeepsTo a := hj
      exact .bind (sendToQueue_scoped queued) fun _ => trivial

theorem enqueueUnlessUsed_scoped {conflict queued : String} {j : Job}
    (ht : a.caches (.walletRequest j.txId)) (hj : a.jobs j) :
    Scoped a (WalletsService.enqueueUnlessUsed conflict queued j) := by
  refine .bind (.perform trivial) fun cached => ?_
  split
  · trivial
  refine .bind (.perform trivial) fun existing => ?_
  cases existing with
  | some _ => exact .bind (.perform ht) fun _ => trivial
  | none =>
    have queued : (Payload.job j).KeepsTo a := hj
    exact .bind (sendToQueue_scoped queued) fun _ => trivial

theorem createWallet_scoped {u cur t} (ht : a.caches (.walletRequest t)) (hn : a.users u)
    (hw : a.caches (.userWallets u)) : Scoped a (WalletsService.createWallet u cur t) := by
  refine .bind (.perform trivial) fun cached => ?_
  split
  · trivial
  refine .bind (.perform trivial) fun existing => ?_
  unfold WalletsService.createUnlessRecorded
  split
  · exact .bind (.perform ht) fun _ => trivial
  refine .bind (.perform trivial) fun found => ?_
  cases found with
  | some _ => trivial
  | none =>
    have told : (Payload.notification ⟨u, "Wallet Created", .created cur, "wallet"⟩).KeepsTo a := hn
    refine .bind (.perform hn) fun w => .bind (.perform trivial) fun r =>
      .bind (.perform ht) fun _ => .bind (sendToQueue_scoped told) fun _ =>
      .bind (.bind (.perform trivial) fun cached => ?_) fun _ => trivial
    cases cached with
    | none => trivial
    | some _ => exact .perform hw

theorem getUserWallets_scoped {u : Int} (hw : a.caches (.userWallets u)) :
    Scoped a (WalletsService.getUserWallets u) := by
  refine .bind (.perform trivial) fun cached => ?_
  cases cached with
  | some _ => trivial
  | none => exact .bind (.perform trivial) fun _ => .bind (.perform hw) fun _ => trivial

theorem create_scoped (b : CreateUserDto) : Scoped a (UsersService.create b) := by
  refine .bind (.perform trivial) fun found => ?_
  split
  · trivial
  · exact .bind (.perform trivial) fun _ => .bind (.perform trivial) fun _ => trivial

theorem login_scoped {b : LoginUserDto} {ip ua : String} (hl : a.logins) :
    Scoped a (UsersService.login b ip ua) := by
  have told (l : LoginAttempt) : (Payload.login l).KeepsTo a := hl
  refine .bind (.perform trivial) fun found => ?_
  cases found with
  | none => exact .bind trivial fun _ => .bind (sendToQueue_scoped (told _)) fun _ => trivial
  | some u =>
    refine .bind (.perform trivial) fun ok => .bind (sendToQueue_scoped (told _)) fun _ => ?_
    dsimp only
    split
    · trivial
    · split <;> trivial

theorem getProfile_scoped {u : Int} (hp : a.caches (.userProfile u)) :
    Scoped a (UsersService.getProfile u) := by
  refine .bind (.perform trivial) fun cached => ?_
  cases cached with
  | some _ => trivial
  | none =>
    refine .bind (.perform trivial) fun found => ?_
    cases found with
    | none => trivial
    | some u => exact .bind (.perform hp) fun _ => trivial

theorem deleteUser_scoped {u : Int} (hp : a.caches (.userProfile u)) :
    Scoped a (UsersService.deleteUser u) := by
  refine .bind (.perform trivial) fun found => ?_
  cases found with
  | none => trivial
  | some user =>
    dsimp only
    split
    · trivial
    · exact .bind (.perform trivial) fun _ => .bind (.perform trivial) fun _ =>
        .bind (.perform hp) fun _ => trivial

/-- A program that keeps to its scope, and what it answers. -/
theorem answer_scoped {c : Proc α} {f : α → Reply} (h : Scoped a c) :
    Scoped a (do let x ← c; pure (f x)) := .bind h fun _ => trivial

/-- What comes after the check of the token may rely on it. -/
theorem checked_scoped {u tok : Int} {c : Proc α} (h : u = tok → Scoped a c) :
    Scoped a (do validateTokenUser u tok; c) := by
  unfold validateTokenUser
  split
  · trivial
  · next same => exact h (not_not.mp same)

/-- A request keeps to the user of its token and to its txId. -/
theorem Request.program_scoped (tok : Int) (r : Request) : Scoped (r.scope tok) (r.program tok) := by
  cases r with
  | createWallet b =>
    exact checked_scoped fun same => answer_scoped (createWallet_scoped (.inl ⟨b, rfl, rfl⟩) same same)
  | fundWallet b => exact checked_scoped fun same => fundWallet_scoped (.inr ⟨_, rfl, rfl⟩) ⟨rfl, same⟩
  | getUserWallets u => exact checked_scoped fun same => answer_scoped (getUserWallets_scoped same)
  | withdrawFromWallet b =>
    exact checked_scoped fun same => enqueueUnlessUsed_scoped (.inr ⟨_, rfl, rfl⟩) ⟨rfl, same⟩
  | transferFunds b =>
    exact checked_scoped fun same => enqueueUnlessUsed_scoped (.inr ⟨_, rfl, rfl⟩) ⟨rfl, same⟩
  | signup b => exact answer_scoped (create_scoped b)
  | login b ip ua => exact answer_scoped (login_scoped rfl)
  | getProfile u => exact checked_scoped fun same => answer_scoped (getProfile_scoped same)
  | updateProfile body client =>
    simp only [program, UsersController.updateProfile]
    split
    · trivial
    · refine checked_scoped fun same => answer_scoped (.bind (.perform trivial) fun _ => ?_)
      exact .bind (.perform same) fun _ => .bind (.perform same) fun _ => trivial
  | deleteUser u => exact checked_scoped fun same => deleteUser_scoped same

end
end Pactic
