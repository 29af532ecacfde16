import Pactic.Protocol.Books
import Pactic.Protocol.Calls
import Pactic.Protocol.Messages

/-! # The cached wallet lists

`getUserWallets` fills the entry `user_wallets:u`, `createWallet` puts its wallet
on top of it, withdrawals and transfers drop it, deposits leave it alone. None of
them does so in the call that changes the table. What a thread still owes the
entry of one user `u` is followed from call to call. -/
namespace Pactic
open Keyed Resumption

/-- The wallets of a user, as the table has them. -/
def Shared.walletsOf (sh : Shared) (u : Int) : List Wallet :=
  sh.db.wallets.rows.filter fun w => w.userId = u ∧ w.deletedAt = none

/-- The entry `user_wallets:u`. -/
def Shared.cachedList (sh : Shared) (u : Int) : Option (List Wallet) := sh.redis (.userWallets u)

/-- The users whose entry a job drops after its commit. -/
def Job.drops : Job → List Int
  | funding _ => []
  | withdrawal d => [d.userId]
  | transfer d => [d.senderId, d.recipientId]

/-- Where a thread stands with the entry of one user. -/
inductive Listing where
  | idle
  | filling (ws : List Wallet)     -- these rows were found, to be cached
  | owes                           -- a job is committed, the entry not dropped yet
  | created (w : Wallet)           -- a wallet is inserted, the entry not read yet
  | prepending (ws : List Wallet)  -- this list is to be cached with the new wallet
  | stopped                        -- an error came while the entry was owed something

def Listing.owing : Listing → Bool
  | owes | created _ | prepending _ => true
  | _ => false

def Listing.error (p : Listing) : Listing := if p.owing then .stopped else p

/-- The entry is read. -/
def Listing.looked : Listing → Option (List Wallet) → Listing
  | created _, none => .idle
  | created w, some ws => .prepending (w :: ws)
  | p, _ => p

def Origin.AllowsLists (_ : Origin) (u : Int) (p : Listing) : Op → Prop
  | .redis (.set (.userWallets v) ws) => v = u → p = .filling ws ∨ p = .prepending ws
  | .prisma (.walletFindMany _) | .prisma (.walletCreate _ _) | .tx _ => p = .idle
  | .prisma (.walletRequestCreate r) => p.owing = true → r.userId = u ∧ r.status = .success
  | _ => True

def Listing.next (o : Origin) (u : Int) (p : Listing) : (op : Op) → Except Err op.Res → Listing
  | .rabbit _, _ => p
  | .redis (.get (.userWallets v)), .ok r => if v = u then p.looked r else p
  | .redis (.set (.userWallets v) _), .ok _ => if v = u then .idle else p
  | .redis (.del (.userWallets v)), .ok _ => if v = u then .idle else p
  | .prisma (.walletFindMany v), .ok ws => if v = u then .filling ws else p
  | .prisma (.walletCreate v _), .ok w => if v = u then .created w else p
  | .tx .commit, .ok _ => if o.job?.any (u ∈ ·.drops) then .owes else p
  | _, .error _ => p.error
  | _, .ok _ => p

/-- The call has nothing to do with the rows or the entry of the user. -/
structure Op.Passes (u : Int) (o : Origin) (op : Op) : Prop where
  set : ∀ ws, op ≠ .redis (.set (.userWallets u) ws)
  del : op ≠ .redis (.del (.userWallets u))
  create : ∀ cur, op ≠ .prisma (.walletCreate u cur)
  commit : op = .tx .commit → o.job?.any (u ∈ ·.drops) = false

/-- All that an outcome can do to where a thread stands. -/
inductive Listing.Moves (o : Origin) (u : Int) (p : Listing) :
    (op : Op) → Except Err op.Res → Listing → Prop where
  | stay {op r} (passes : op.Passes u o) : Moves o u p op r p
  | error {op e} : Moves o u p op (.error e) p.error
  | look {x} : Moves o u p (.redis (.get (.userWallets u))) (.ok x) (p.looked x)
  | set {ws x} : Moves o u p (.redis (.set (.userWallets u) ws)) (.ok x) .idle
  | del {x} : Moves o u p (.redis (.del (.userWallets u))) (.ok x) .idle
  | find {ws} : Moves o u p (.prisma (.walletFindMany u)) (.ok ws) (.filling ws)
  | create {cur w} : Moves o u p (.prisma (.walletCreate u cur)) (.ok w) (.created w)
  | commit {x} (drops : o.job?.any (u ∈ ·.drops) = true) : Moves o u p (.tx .commit) (.ok x) .owes

theorem Listing.next_moves (o : Origin) (u : Int) (p : Listing) (op : Op) (r) :
    Listing.Moves o u p op r (p.next o u op r) := by
  cases op with
  | rabbit op => exact .stay ⟨by simp, by simp, by simp, by simp⟩
  | library op =>
    cases r <;> first | exact .stay ⟨by simp, by simp, by simp, by simp⟩ | exact .error
  | redis op =>
    cases op with
    | get k =>
      cases k with
      | userWallets v =>
        cases r with
        | error e => exact .error
        | ok x =>
          by_cases hv : v = u
          · subst hv
            rw [show p.next o v (.redis (.get (.userWallets v))) (.ok x) = p.looked x from if_pos rfl]
            exact .look
          · rw [show p.next o u (.redis (.get (.userWallets v))) (.ok x) = p from if_neg hv]
            exact .stay ⟨by simp, by simp, by simp, by simp⟩
      | _ => cases r <;> first | exact .stay ⟨by simp, by simp, by simp, by simp⟩ | exact .error
    | set k ws =>
      cases k with
      | userWallets v =>
        cases r with
        | error e => exact .error
        | ok x =>
          by_cases hv : v = u
          · subst hv
            rw [show p.next o v (.redis (.set (.userWallets v) ws)) (.ok x) = .idle from if_pos rfl]
            exact .set
          · rw [show p.next o u (.redis (.set (.userWallets v) ws)) (.ok x) = p from if_neg hv]
            exact .stay ⟨by simp [hv], by simp, by simp, by simp⟩
      | _ => cases r <;> first | exact .stay ⟨by simp, by simp, by simp, by simp⟩ | exact .error
    | del k =>
      cases k with
      | userWallets v =>
        cases r with
        | error e => exact .error
        | ok x =>
          by_cases hv : v = u
          · subst hv
            rw [show p.next o v (.redis (.del (.userWallets v))) (.ok x) = .idle from if_pos rfl]
            exact .del
          · rw [show p.next o u (.redis (.del (.userWallets v))) (.ok x) = p from if_neg hv]
            exact .stay ⟨by simp, by simp [hv], by simp, by simp⟩
      | _ => cases r <;> first | exact .stay ⟨by simp, by simp, by simp, by simp⟩ | exact .error
  | prisma op =>
    cases op with
    | walletFindMany v =>
      cases r with
      | error e => exact .error
      | ok ws =>
        by_cases hv : v = u
        · subst hv
          rw [show p.next o v (.prisma (.walletFindMany v)) (.ok ws) = .filling ws from if_pos rfl]
          exact .find
        · rw [show p.next o u (.prisma (.walletFindMany v)) (.ok ws) = p from if_neg hv]
          exact .stay ⟨by simp, by simp, by simp, by simp⟩
    | walletCreate v cur =>
      cases r with
      | error e => exact .error
      | ok w =>
        by_cases hv : v = u
        · subst hv
          rw [show p.next o v (.prisma (.walletCreate v cur)) (.ok w) = .created w from if_pos rfl]
          exact .create
        · rw [show p.next o u (.prisma (.walletCreate v cur)) (.ok w) = p from if_neg hv]
          exact .stay ⟨by simp, by simp, by simp [hv], by simp⟩
    | _ => cases r <;> first | exact .stay ⟨by simp, by simp, by simp, by simp⟩ | exact .error
  | tx op =>
    cases op with
    | commit =>
      cases r with
      | error e => exact .error
      | ok x =>
        by_cases hd : o.job?.any (u ∈ ·.drops) = true
        · rw [show p.next o u (.tx .commit) (.ok x) = .owes from if_pos hd]
          exact .commit hd
        · rw [show p.next o u (.tx .commit) (.ok x) = p from if_neg hd]
          exact .stay ⟨by simp, by simp, by simp, fun _ => Bool.not_eq_true _ ▸ hd⟩
    | _ => cases r <;> first | exact .stay ⟨by simp, by simp, by simp, by simp⟩ | exact .error

def lists (u : Int) (o : Origin) : Monitor Op Op.Res Err Listing := ⟨o.AllowsLists u, Listing.next o u⟩

/-- A thread that ends owes nothing, or an error has stopped it. -/
def Settles (_ : Origin) (_ : Except Err Reply) (p : Listing) : Prop := p.owing = false

/-! ## The programs -/

section
variable {u : Int} {o : Origin} {j : Job} {α β : Type} {p : Listing}

/-- A call that leaves a thread with nothing to do for the entry where it is. -/
def Op.Still (u : Int) (o : Origin) (op : Op) : Prop :=
  (lists u o).allow .idle op ∧ ∀ r, (lists u o).next .idle op r = .idle

abbrev StillCalls (u : Int) (o : Origin) (c : Proc α) : Prop := c.Only (Op.Still u o)

theorem StillCalls.wp {c : Proc α} (h : StillCalls u o c) :
    (lists u o).wp c (fun _ q => q = .idle) .idle :=
  Monitor.wp_of_only _ (fun _ hop => hop) h

@[simp] theorem Listing.error_idle : Listing.error .idle = .idle := rfl
@[simp] theorem Listing.looked_idle (r) : Listing.looked .idle r = .idle := by cases r <;> rfl

theorem still_of_ofHandler {op : Op} (h : op.ofHandler = true)
    (hc : op = .tx .commit → o.job?.any (u ∈ ·.drops) = false) : op.Still u o := by
  cases op with
  | redis op =>
    cases op with
    | get k => cases k <;> exact ⟨trivial, fun r => by cases r <;> simp [lists, Listing.next]⟩
    | set k v =>
      cases k with
      | userWallets | userProfile => cases h
      | _ => exact ⟨trivial, fun r => by cases r <;> rfl⟩
    | del k => cases k <;> exact ⟨trivial, fun r => by cases r <;> simp [lists, Listing.next]⟩
  | prisma op =>
    cases op with
    | walletFindMany | walletCreate => cases h
    | walletRequestCreate row => exact ⟨fun hp => (by cases hp), fun r => by cases r <;> rfl⟩
    | _ => exact ⟨trivial, fun r => by cases r <;> rfl⟩
  | tx op =>
    cases op with
    | commit => exact ⟨rfl, fun r => by cases r <;> simp [lists, Listing.next, hc rfl]⟩
    | _ => exact ⟨rfl, fun r => by cases r <;> rfl⟩
  | rabbit op => exact ⟨trivial, fun r => rfl⟩
  | library op => cases h

/-- Nothing is owed, and nothing is on its way into the entry. -/
def Listing.settled (p : Listing) : Prop := p = .idle ∨ p = .stopped

theorem Listing.settled.owing (h : p.settled) : p.owing = false := by
  rcases h with rfl | rfl <;> rfl

/-- A call that does not unsettle a thread. -/
def Op.Settling (u : Int) (o : Origin) (op : Op) : Prop :=
  ∀ p : Listing, p.settled → (lists u o).allow p op ∧ ∀ r, ((lists u o).next p op r).settled

theorem settling_of_ofHandler {op : Op} (h : op.ofHandler = true) (ht : ∀ t, op ≠ .tx t) :
    op.Settling u o := by
  intro p hp
  have looked (r) : (p.looked r).settled := by
    rcases hp with rfl | rfl <;> cases r <;> first | exact .inl rfl | exact .inr rfl
  have error : p.error.settled := by
    rcases hp with rfl | rfl <;> first | exact .inl rfl | exact .inr rfl
  have either {c : Prop} [Decidable c] {q : Listing} (hq : q.settled) : (if c then q else p).settled := by
    split
    · exact hq
    · exact hp
  cases op with
  | redis op =>
    cases op with
    | get k =>
      refine ⟨by cases k <;> trivial, forall_except.mpr ⟨fun r => ?_, fun e => ?_⟩⟩
      · cases k <;> first | exact hp | exact either (looked r)
      · cases k <;> exact error
    | set k v =>
      cases k with
      | userWallets | userProfile => cases h
      | _ => exact ⟨trivial, forall_except.mpr ⟨fun r => hp, fun e => error⟩⟩
    | del k =>
      refine ⟨by cases k <;> trivial, forall_except.mpr ⟨fun r => ?_, fun e => ?_⟩⟩
      · cases k <;> first | exact hp | exact either (.inl rfl)
      · cases k <;> exact error
  | prisma op =>
    cases op with
    | walletFindMany | walletCreate => cases h
    | walletRequestCreate row =>
      refine ⟨fun ho => ?_, forall_except.mpr ⟨fun r => hp, fun e => error⟩⟩
      rw [hp.owing] at ho
      cases ho
    | _ => exact ⟨trivial, forall_except.mpr ⟨fun r => hp, fun e => error⟩⟩
  | tx op => exact absurd rfl (ht op)
  | rabbit op => exact ⟨trivial, fun r => hp⟩
  | library op => cases h

theorem settling_of_rabbit (op : RabbitOp) : (Op.rabbit op).Settling u o :=
  fun _ hp => ⟨trivial, fun _ => hp⟩

theorem settling_of_minor {op : Op} (h : op.minor = true) : op.Settling u o :=
  settling_of_ofHandler (Op.ofHandler_of_minor h) fun t ht => by rw [ht] at h; cases h

/-- What a settled thread does without a session keeps it settled. -/
theorem wp_settled {c : Proc α} (h : c.Only (Op.Settling u o)) (hp : p.settled) :
    (lists u o).wp c (fun _ q => q.settled) p :=
  Monitor.wp_of_keeps _ (fun p _ hp hop => hop p hp) h hp

/-- The `$transaction` of a job that drops the entry. -/
theorem transaction_lists {body : Proc α} {Q : Except Err α → Listing → Prop} (hb : Statements body)
    (hd : o.job?.any (u ∈ ·.drops) = true) (hok : ∀ a, Q (.ok a) .owes)
    (herr : ∀ e, Q (.error e) .idle) : (lists u o).wp (Prisma.transaction body) Q .idle := by
  have still : StillCalls u o body := hb.mono fun op hop =>
    still_of_ofHandler (Op.ofHandler_of_statement hop) fun he => by rw [he] at hop; cases hop
  have committed : (lists u o).next .idle (.tx .commit) (.ok ()) = .owes := by
    simp [lists, Listing.next, hd]
  refine (Monitor.wp_perform_bind _ _ _ _ _).mpr ⟨rfl, fun _ => ?_, herr⟩
  refine (Monitor.wp_bind _ _ _ _ _).mpr ((Monitor.wp_tryCatch _ _ _ _ _).mpr
    (Monitor.wp_mono _ still.wp fun r q hq => ?_))
  subst hq
  cases r with
  | ok a =>
    exact (Monitor.wp_perform_bind _ _ _ _ _).mpr ⟨rfl, fun _ => committed ▸ hok a, herr⟩
  | error e => exact (Monitor.wp_perform_bind _ _ _ _ _).mpr ⟨rfl, fun _ => herr e, herr⟩

theorem withdraw_lists {d : WithdrawWalletDto} (hj : o.job? = some (.withdrawal d))
    (hu : u = d.userId) : (lists u o).wp (withdraw d) (fun _ q => q.settled) .idle := by
  subst hu
  have drops : o.job?.any (d.userId ∈ ·.drops) = true := by simp [hj, Job.drops]
  refine (Monitor.wp_bind _ _ _ _ _).mpr (transaction_lists (withdrawalTransaction_calls d) drops
    (fun row => ?_) fun e => .inl rfl)
  refine (Monitor.wp_perform_bind _ _ _ _ _).mpr ⟨trivial, fun _ => ?_, fun e => .inr rfl⟩
  refine (Monitor.wp_perform_bind _ _ _ _ _).mpr ⟨trivial, fun _ => ?_, fun e => .inr rfl⟩
  have dropped : (lists d.userId o).next .owes (.redis (.del (.userWallets d.userId))) (.ok ()) =
      .idle := if_pos rfl
  refine wp_settled ?_ (.inl dropped)
  exact .bind ((prependTransaction_calls _ _).mono fun _ => settling_of_minor) fun _ =>
    (notify_calls _ _ _).mono fun _ => settling_of_minor

/-- What `promiseAll` makes of the two outcomes. -/
def bothOk : Except Err α → Except Err β → Except Err (α × β)
  | .ok a, .ok b => .ok (a, b)
  | .error e, _ => .error e
  | .ok _, .error e => .error e

theorem wp_promiseAll (op op' : Op) {Q : Except Err (op.Res × op'.Res) → Listing → Prop}
    (ha : ∀ q, (lists u o).allow q op ∧ (lists u o).allow q op')
    (h : ∀ r r', Q (bothOk r r') ((lists u o).next ((lists u o).next p op r) op' r')) :
    (lists u o).wp (promiseAll (call op) (call op')) Q p := by
  simp only [promiseAll, Monitor.wp_bind, Monitor.wp_tryCatch]
  refine ⟨(ha p).1, fun r => ?_⟩
  cases r with
  | ok a =>
    refine ⟨(ha _).2, fun r' => ?_⟩
    cases r' with
    | ok b => exact h (.ok a) (.ok b)
    | error e => exact h (.ok a) (.error e)
  | error e =>
    refine ⟨(ha _).2, fun r' => ?_⟩
    cases r' with
    | ok b => exact h (.error e) (.ok b)
    | error e' => exact h (.error e) (.error e')

/-- A lookup that ends well leaves what is owed as it is. -/
theorem prepend_owes {v row} {Q : Except Err Unit → Listing → Prop} (hok : Q (.ok ()) .owes)
    (herr : ∀ e, Q (.error e) .stopped) : (lists u o).wp (prependTransaction v row) Q .owes := by
  refine (Monitor.wp_perform_bind _ _ _ _ _).mpr ⟨trivial, fun cached => ?_, herr⟩
  cases cached with
  | none => exact hok
  | some _ => exact ⟨trivial, forall_except_unit.mpr ⟨hok, herr⟩⟩

theorem transfer_lists {d : TransferWalletDto} (hj : o.job? = some (.transfer d))
    (hu : u = d.senderId ∨ u = d.recipientId) :
    (lists u o).wp (transfer d) (fun _ q => q.settled) .idle := by
  have drops : o.job?.any (u ∈ ·.drops) = true := by simpa [hj, Job.drops] using hu
  refine (Monitor.wp_bind _ _ _ _ _).mpr (transaction_lists (transferTransaction_calls d) drops
    (fun _ => ?_) fun e => .inl rfl)
  refine (Monitor.wp_perform_bind _ _ _ _ _).mpr ⟨trivial, fun _ => ?_, fun e => .inr rfl⟩
  refine (Monitor.wp_bind _ _ _ _ _).mpr (wp_promiseAll _ _ (fun q => ⟨trivial, trivial⟩)
    fun r r' => ?_)
  cases r with
  | error e => cases r' <;> exact .inr rfl
  | ok senderTx =>
    cases r' with
    | error e => exact .inr rfl
    | ok recipientTx =>
      refine (Monitor.wp_bind _ _ _ _ _).mpr (prepend_owes ?_ fun e => .inr rfl)
      refine (Monitor.wp_bind _ _ _ _ _).mpr (prepend_owes ?_ fun e => .inr rfl)
      refine (Monitor.wp_bind _ _ _ _ _).mpr (wp_promiseAll _ _ (fun q => ⟨trivial, trivial⟩)
        fun r r' => ?_)
      -- with both entries dropped that of `u` is, and an error stops the thread
      have dropped : ((lists u o).next ((lists u o).next .owes (.redis (.del (.userWallets d.senderId))) r)
          (.redis (.del (.userWallets d.recipientId))) r').settled := by
        rcases hu with rfl | rfl
        · cases r <;> cases r' <;> by_cases he : d.recipientId = d.senderId <;>
            simp [lists, Listing.next, Listing.settled, Listing.error, Listing.owing, he]
        · cases r <;> cases r' <;> by_cases he : d.senderId = d.recipientId <;>
            simp [lists, Listing.next, Listing.settled, Listing.error, Listing.owing, he]
      cases r with
      | error e => exact dropped
      | ok _ =>
        cases r' with
        | error e => exact dropped
        | ok _ =>
          refine wp_settled (.bind ?_ fun _ => trivial) dropped
          exact promiseAll_only ((notify_calls _ _ _).mono fun _ => settling_of_minor)
            ((notify_calls _ _ _).mono fun _ => settling_of_minor)

/-- The handler around its main part. -/
theorem guarded_lists {c : Proc Unit} {rescue : Err → Proc Unit} {t user cur}
    (hc : (lists u o).wp c (fun _ q => q.settled) .idle)
    (hr : ∀ e, (rescue e).Only (Op.Settling u o)) :
    (lists u o).wp (tryCatch (do
      if ← alreadyProcessed t then pure ()
      else if ← preLog user cur t then c
      else pure ()) rescue) (fun _ q => q.settled) .idle := by
  have rescued {e : Err} {q : Listing} (hq : q.settled) :
      (lists u o).wp (rescue e) (fun _ q => q.settled) q := wp_settled (hr e) hq
  have skip : StillCalls u o (alreadyProcessed t) := (alreadyProcessed_calls t).mono fun op hop =>
    still_of_ofHandler (Op.ofHandler_of_minor hop) fun he => by rw [he] at hop; cases hop
  have log : StillCalls u o (preLog user cur t) := by
    refine .tryCatch (.bind (.perform (still_of_ofHandler rfl fun he => by cases he)) fun _ => trivial)
      fun err => ?_
    split <;> trivial
  refine (Monitor.wp_tryCatch _ _ _ _ _).mpr ((Monitor.wp_bind _ _ _ _ _).mpr
    (Monitor.wp_mono _ skip.wp fun r q hq => ?_))
  subst hq
  cases r with
  | error e => exact rescued (.inl rfl)
  | ok processed =>
    cases processed with
    | true => exact .inl rfl
    | false =>
      refine (Monitor.wp_bind _ _ _ _ _).mpr (Monitor.wp_mono _ log.wp fun r q hq => ?_)
      subst hq
      cases r with
      | error e => exact rescued (.inl rfl)
      | ok mine =>
        cases mine with
        | false => exact .inl rfl
        | true =>
          refine Monitor.wp_mono _ hc fun r q hq => ?_
          cases r with
          | error e => exact rescued hq
          | ok _ => exact hq

theorem send_settling (q data x) : (sendToQueue q data x).Only (Op.Settling u o) :=
  .tryCatch (.bind (.perform (settling_of_rabbit _)) fun _ => .perform (settling_of_rabbit _))
    fun _ => trivial

theorem consume_lists {q m} {handler : Proc Unit}
    (h : (lists u o).wp handler (fun _ q => q.settled) .idle) :
    (lists u o).wp (consume q handler m) (fun _ q => q.settled) .idle := by
  refine (Monitor.wp_tryCatch _ _ _ _ _).mpr (Monitor.wp_mono _ h fun r p hp => ?_)
  cases r with
  | ok _ => exact hp
  | error e =>
    refine wp_settled ?_ hp
    split
    · exact .bind (send_settling _ _ _) fun _ => .perform (settling_of_rabbit _)
    · exact .bind (send_settling _ _ _) fun _ => .perform (settling_of_rabbit _)

theorem markFailed_settling (t : String) : (markFailed t).Only (Op.Settling u o) :=
  .bind (.perform (settling_of_ofHandler rfl fun t ht => by cases ht)) fun _ =>
    .perform (settling_of_minor rfl)

/-- The handler of a job that drops the entry. -/
theorem handler_lists (hj : o.job? = some j) (hu : u ∈ j.drops) :
    (lists u o).wp j.handler (fun _ q => q.settled) .idle := by
  cases j with
  | funding d => cases hu
  | withdrawal d =>
    exact guarded_lists (withdraw_lists hj (List.mem_singleton.mp hu)) fun _ => markFailed_settling _
  | transfer d =>
    have hu' : u = d.senderId ∨ u = d.recipientId := by simpa [Job.drops] using hu
    exact guarded_lists (transfer_lists hj hu') fun _ => .bind (markFailed_settling _) fun _ => trivial

theorem delivery_lists {m : Message} {c : Proc Unit} (h : deliver m = some c) :
    (lists u (.delivery m)).wp c (fun _ q => q.settled) .idle := by
  obtain ⟨handler, rfl, calls, job⟩ := deliver_eq_consume h
  refine consume_lists ?_
  by_cases hd : (Origin.delivery m).job?.any (u ∈ ·.drops) = true
  · obtain ⟨j, hj, hu⟩ := (Option.any_eq_true _ _).mp hd
    have data : m.data = .job j := by
      simp only [Origin.job?] at hj
      split at hj
      · next d => cases hj; exact d
      · cases hj
    rw [(job j data).2]
    exact handler_lists hj (of_decide_eq_true hu)
  · have still : StillCalls u (.delivery m) handler := calls.mono fun op hop =>
      still_of_ofHandler hop fun _ => Bool.not_eq_true _ ▸ hd
    exact Monitor.wp_mono _ still.wp fun r q hq => .inl hq

/-! ## The endpoints -/

theorem settling_findRequest (t : String) :
    (Op.prisma (.walletRequestFindUnique t)).Settling u o := by
  intro p hp
  refine ⟨trivial, forall_except.mpr ⟨fun r => hp, fun e => ?_⟩⟩
  rcases hp with rfl | rfl
  · exact .inl rfl
  · exact .inr rfl

theorem fundWallet_settling (b : FundWalletDto) :
    (WalletsService.fundWallet b).Only (Op.Settling u o) := by
  refine .bind (.perform (settling_of_minor rfl)) fun cached => ?_
  cases cached with
  | some _ => trivial
  | none =>
    refine .bind (.perform (settling_findRequest _)) fun existing => ?_
    cases existing with
    | some _ => exact .bind (.perform (settling_of_minor rfl)) fun _ => trivial
    | none => exact .bind (send_settling _ _ _) fun _ => trivial

theorem enqueue_settling (conflict queued : String) (j : Job) :
    (WalletsService.enqueueUnlessUsed conflict queued j).Only (Op.Settling u o) := by
  refine .bind (.perform (settling_of_minor rfl)) fun cached => ?_
  split
  · trivial
  · refine .bind (.perform (settling_findRequest _)) fun existing => ?_
    cases existing with
    | some _ => exact .bind (.perform (settling_of_minor rfl)) fun _ => trivial
    | none => exact .bind (send_settling _ _ _) fun _ => trivial

/-- Whatever the broker does, a publication returns. -/
theorem send_lists {q data x} {Q : Except Err Unit → Listing → Prop} (h : Q (.ok ()) p) :
    (lists u o).wp (sendToQueue q data x) Q p := by
  refine (Monitor.wp_tryCatch _ _ _ _ _).mpr ((Monitor.wp_perform_bind _ _ _ _ _).mpr
    ⟨trivial, fun _ => ⟨trivial, fun r => ?_⟩, fun e => h⟩)
  cases r <;> exact h

/-- The new wallet goes on top of what is cached. -/
theorem prependWallet_lists (w : Wallet) : (lists u o).wp (WalletsService.prependWallet u w)
    (fun _ q => q.owing = false) (.created w) := by
  refine (Monitor.wp_perform_bind _ _ _ _ _).mpr ⟨trivial, fun cached => ?_, fun e => rfl⟩
  have looked : (lists u o).next (.created w) (.redis (.get (.userWallets u))) (.ok cached) =
      Listing.looked (.created w) cached := if_pos rfl
  rw [looked]
  cases cached with
  | none => exact rfl
  | some parsed =>
    have set : (lists u o).next (.prepending (w :: parsed))
        (.redis (.set (.userWallets u) (w :: parsed))) (.ok ()) = .idle := if_pos rfl
    refine ⟨fun _ => .inr rfl, forall_except_unit.mpr ⟨?_, fun e => rfl⟩⟩
    exact (congrArg Listing.owing set).trans rfl

theorem prependWallet_settling {v : Int} (hv : v ≠ u) (w : Wallet) :
    (WalletsService.prependWallet v w).Only (Op.Settling u o) := by
  refine .bind (.perform (settling_of_minor rfl)) fun cached => ?_
  cases cached with
  | none => trivial
  | some parsed =>
    refine .perform fun p hp => ⟨fun h => absurd h hv, forall_except.mpr ⟨fun r => ?_, fun e => ?_⟩⟩
    · show Listing.settled (if v = u then _ else _)
      rw [if_neg hv]
      exact hp
    · rcases hp with rfl | rfl
      · exact .inl rfl
      · exact .inr rfl

theorem settling_createRequest (r : WalletRequest) :
    (Op.prisma (.walletRequestCreate r)).Settling u o :=
  settling_of_ofHandler rfl fun t ht => by cases ht

theorem insertWallet_lists (v : Int) (cur t : String) :
    (lists u o).wp (WalletsService.insertWallet v cur t) (fun _ q => q.owing = false) .idle := by
  refine (Monitor.wp_perform_bind _ _ _ _ _).mpr ⟨rfl, fun w => ?_, fun e => rfl⟩
  by_cases hv : v = u
  · subst hv
    have created : (lists v o).next .idle (.prisma (.walletCreate v cur)) (.ok w) = .created w :=
      if_pos rfl
    rw [created]
    refine (Monitor.wp_perform_bind _ _ _ _ _).mpr ⟨fun _ => ⟨rfl, rfl⟩, fun row => ?_, fun e => rfl⟩
    refine (Monitor.wp_perform_bind _ _ _ _ _).mpr ⟨trivial, fun _ => ?_, fun e => rfl⟩
    refine (Monitor.wp_bind _ _ _ _ _).mpr (send_lists ((Monitor.wp_bind _ _ _ _ _).mpr
      (Monitor.wp_mono _ (prependWallet_lists w) fun r q hq => ?_)))
    cases r <;> exact hq
  · have other : (lists u o).next .idle (.prisma (.walletCreate v cur)) (.ok w) = .idle := if_neg hv
    rw [other]
    refine Monitor.wp_mono _ (wp_settled ?_ (.inl rfl)) fun r q hq => hq.owing
    exact .bind (.perform (settling_createRequest _)) fun row =>
      .bind (.perform (settling_of_minor rfl)) fun _ => .bind (send_settling _ _ _) fun _ =>
      .bind (prependWallet_settling hv w) fun _ => trivial

theorem still_findRequest (t : String) : (Op.prisma (.walletRequestFindUnique t)).Still u o :=
  ⟨trivial, fun r => by cases r <;> rfl⟩

theorem still_findFirst (v : Int) (cur : String) : (Op.prisma (.walletFindFirst v cur)).Still u o :=
  ⟨trivial, fun r => by cases r <;> rfl⟩

theorem createWallet_lists (v : Int) (cur t : String) :
    (lists u o).wp (WalletsService.createWallet v cur t) (fun _ q => q.owing = false) .idle := by
  have next {op : Op} (h : op.Still u o) {k : op.Res → Proc Wallet}
      (hk : ∀ a, (lists u o).wp (k a) (fun _ q => q.owing = false) .idle) :
      (lists u o).wp (call op >>= k) (fun _ q => q.owing = false) .idle := by
    refine (Monitor.wp_perform_bind _ _ _ _ _).mpr ⟨h.1, fun a => (h.2 (.ok a)).symm ▸ hk a,
      fun e => (h.2 (.error e)).symm ▸ rfl⟩
  refine next (still_of_ofHandler rfl fun he => by cases he) fun cached => ?_
  split
  · exact rfl
  · refine next (still_findRequest t) fun existing => ?_
    unfold WalletsService.createUnlessRecorded
    split
    · exact next (still_of_ofHandler rfl fun he => by cases he) fun _ => rfl
    · refine next (still_findFirst v cur) fun found => ?_
      cases found with
      | some _ => exact rfl
      | none => exact insertWallet_lists v cur t

theorem getUserWallets_lists (v : Int) :
    (lists u o).wp (WalletsService.getUserWallets v) (fun _ q => q.owing = false) .idle := by
  have still : (Op.redis (.get (.userWallets v))).Still u o :=
    still_of_ofHandler rfl fun he => by cases he
  refine (Monitor.wp_perform_bind _ _ _ _ _).mpr ⟨still.1, fun cached => ?_, fun e => rfl⟩
  rw [show (lists u o).next .idle (.redis (.get (.userWallets v))) (.ok cached) = .idle from
    still.2 (.ok cached)]
  cases cached with
  | some _ => exact rfl
  | none =>
    refine (Monitor.wp_perform_bind _ _ _ _ _).mpr ⟨rfl, fun ws => ?_, fun e => rfl⟩
    have found : (lists u o).next .idle (.prisma (.walletFindMany v)) (.ok ws) =
        if v = u then .filling ws else .idle := rfl
    have cached : (lists u o).next (if v = u then .filling ws else .idle)
        (.redis (.set (.userWallets v) ws)) (.ok ()) = .idle := by
      show (if v = u then Listing.idle else if v = u then .filling ws else .idle) = .idle
      split <;> rfl
    rw [found]
    refine (Monitor.wp_perform_bind _ _ _ _ _).mpr ⟨fun hv => .inl (if_pos hv), fun _ => ?_,
      fun e => ?_⟩
    · rw [cached]; exact rfl
    · by_cases hv : v = u
      · rw [if_pos hv]; exact rfl
      · rw [if_neg hv]; exact rfl

/-- The wallet threads follow their entries. -/
theorem service_lists {C : State → Step → Prop} (hC : ∀ s l, C s l → WalletRun s l) :
    Machine.Obeys service (lists u) Settles (fun _ => .idle) C := by
  intro s o sh hc ha
  cases o with
  | delivery m =>
    obtain ⟨c, hcons, program⟩ := Origin.program_delivery (Origin.accept_delivery ha).2.1
    show (lists u _).wp (Origin.delivery m).program _ _
    rw [program]
    refine (Monitor.wp_bind _ _ _ _ _).mpr (Monitor.wp_mono _ (delivery_lists hcons)
      fun r q hq => ?_)
    cases r <;> exact hq.owing
  | http tok r =>
    have answer {α : Type} {c : Proc α} {f : α → Reply}
        (h : (lists u (.http tok r)).wp c (fun _ q => q.owing = false) .idle) :
        (lists u (.http tok r)).wp (do let a ← c; pure (f a)) (Settles (.http tok r)) .idle :=
      wp_answer h (fun a q hq => hq) fun e q hq => hq
    have settling {c : Proc Reply} (h : c.Only (Op.Settling u (.http tok r))) :
        (lists u (.http tok r)).wp c (Settles (.http tok r)) .idle :=
      Monitor.wp_mono _ (wp_settled h (.inl rfl)) fun r q hq => hq.owing
    cases r with
    | createWallet b =>
      exact wp_validateTokenUser (fun _ => rfl) fun _ => answer (createWallet_lists _ _ _)
    | fundWallet b => exact wp_validateTokenUser (fun _ => rfl) fun _ => settling (fundWallet_settling b)
    | getUserWallets v => exact wp_validateTokenUser (fun _ => rfl) fun _ => answer (getUserWallets_lists v)
    | withdrawFromWallet b =>
      exact wp_validateTokenUser (fun _ => rfl) fun _ => settling (enqueue_settling _ _ _)
    | transferFunds b =>
      exact wp_validateTokenUser (fun _ => rfl) fun _ => settling (enqueue_settling _ _ _)
    | _ => cases hC _ _ hc

end

/-! ## What a call does to the rows and to the entry -/

/-- A call that can change the wallets. -/
def Op.writesWallets : Op → Bool
  | .tx .commit | .prisma (.walletCreate _ _) => true
  | _ => false

section
variable {u : Int} {sh sh' : Shared} {i : Nat} {o : Origin} {c : Choice} {j : Job} {p : Local}
  {g : Threads}

/-- What a call does to the entry of a user. -/
theorem exec_cachedList {op : Op} {r} (h : exec c i o op sh = some (sh', r)) :
    sh'.cachedList u = sh.cachedList u ∨
    (∃ ws, op = .redis (.set (.userWallets u) ws) ∧ c ≠ .fail ∧ sh'.cachedList u = some ws) ∨
    op = .redis (.del (.userWallets u)) ∧ sh'.cachedList u = none := by
  unfold Shared.cachedList
  rcases exec_redis h with hr | ⟨op', rfl, hc, hr⟩
  · exact .inl (by rw [hr])
  rw [hr]
  cases op' with
  | get k => exact .inl rfl
  | set k v =>
    by_cases hk : k = .userWallets u
    · subst hk
      exact .inr (.inl ⟨v, rfl, hc, Function.update_self _ _ _⟩)
    · exact .inl (Function.update_of_ne (Ne.symm hk) _ _)
  | del k =>
    by_cases hk : k = .userWallets u
    · subst hk
      exact .inr (.inr ⟨rfl, Function.update_self _ _ _⟩)
    · exact .inl (Function.update_of_ne (Ne.symm hk) _ _)

/-- A look at the entry that is answered. -/
theorem exec_get_ok {k : CacheKey} {x} (h : exec c i o (.redis (.get k)) sh = some (sh', .ok x)) :
    sh' = sh ∧ x = sh.redis k := by
  rcases exec_answer h with ⟨a, rfl, hrun⟩ | he
  · cases hrun; exact ⟨rfl, rfl⟩
  · cases he

/-- A job without a leg on a wallet of the user leaves the user's rows alone. -/
theorem walletsOf_apply (h : sh.book.apply j = some sh'.book) (hu : ∀ l ∈ j.legs, l.userId ≠ u) :
    sh'.walletsOf u = sh.walletsOf u := by
  obtain ⟨-, ws, reads, hws, -⟩ := Book.apply_eq_some.mp h
  have other {w : Wallet} {l : Leg} (hl : l ∈ j.legs) (hr : sh.book.Reads l w) :
      ¬ (w.userId = u ∧ w.deletedAt = none) := by
    rintro ⟨rfl, -⟩
    exact hu l hl hr.admits.1.1.symm
  show sh'.book.wallets.rows.filter _ = sh.book.wallets.rows.filter _
  rw [hws]
  refine Table.filter_foldl_put fun w hw => ?_
  obtain ⟨l, hl, w₀, hr, rfl⟩ := Book.mem_writes reads hw
  refine ⟨(other hl hr : ¬ (w₀.userId = u ∧ w₀.deletedAt = none)), fun x hx he => ?_⟩
  have same : x = w₀ := Table.eq_of_key _ hx (Table.find?_eq_some.mp hr.found).1 he
  exact same ▸ other hl hr

/-- A new wallet comes last among the rows of its user. -/
theorem walletsOf_addWallet {w : Wallet} {t} (ins : sh.db.wallets.insert? w = some t) :
    (sh.addWallet w t).walletsOf u =
      sh.walletsOf u ++ if w.userId = u ∧ w.deletedAt = none then [w] else [] := by
  show t.rows.filter _ = _
  rw [(Table.insert?_eq_some.mp ins).2, List.filter_append]
  congr 1
  by_cases hw : w.userId = u ∧ w.deletedAt = none
  · rw [if_pos hw, List.filter_cons_of_pos (by simpa using hw)]; rfl
  · rw [if_neg hw, List.filter_cons_of_neg (by simpa using hw)]; rfl

/-- A write that does not answer well has changed no wallet, unless its answer
was lost. -/
theorem exec_writes_error {op : Op} {r} {e : Err} (hop : op.writesWallets = true)
    (h : exec c i o op sh = some (sh', r)) (hr : r = .error e) :
    sh'.db.wallets = sh.db.wallets ∨ ∃ a, c = .failAfter a := by
  cases c with
  | failAfter a => exact .inr ⟨a, rfl⟩
  | fail =>
    cases h
    cases op with
    | tx op => cases op <;> exact .inl rfl
    | _ => exact .inl rfl
  | ok a =>
    cases op with
    | tx op =>
      cases op with
      | commit =>
        simp only [exec, Op.run, TxOp.run, Option.map_eq_some_iff] at h
        obtain ⟨tx, -, h⟩ := h
        unfold Shared.commit at h
        split at h
        · cases h; exact .inl rfl
        · cases h; cases hr
      | _ => cases hop
    | prisma op =>
      cases op with
      | walletCreate v cur =>
        simp only [exec, Op.run, PrismaOp.run] at h
        split at h
        · cases h; exact .inl rfl
        · split at h
          · cases h; cases hr
          · cases h; exact .inl rfl
      | _ => cases hop
    | _ => cases hop

/-- What changes the rows of a user: the commit of a job with a leg on one of
them, or a new wallet. -/
theorem exec_walletsOf {op : Op} {r} (sound : Sound sh g) (hg : g i = some (o, p))
    (ha : o.Allows p op) (h : exec c i o op sh = some (sh', r)) :
    sh'.walletsOf u = sh.walletsOf u ∨
    ((∀ e, r = .error e → ∃ a, c = .failAfter a) ∧ ((∃ cur, op = .prisma (.walletCreate u cur)) ∨
      op = .tx .commit ∧ ∃ j, o.job? = some j ∧ ∃ l ∈ j.legs, l.userId = u)) := by
  have same (hw : sh'.db.wallets = sh.db.wallets) : sh'.walletsOf u = sh.walletsOf u := by
    simp only [Shared.walletsOf, hw]
  by_cases herr : ∃ e, op.writesWallets = true ∧ r = .error e ∧ ∀ a, c ≠ .failAfter a
  · obtain ⟨e, hop, hr, hc⟩ := herr
    rcases exec_writes_error hop h hr with hw | ⟨a, rfl⟩
    · exact .inl (same hw)
    · exact absurd rfl (hc a)
  have answered (hop : op.writesWallets = true) (e) (hr : r = .error e) : ∃ a, c = .failAfter a := by
    by_contra hc
    exact herr ⟨e, hop, hr, fun a ha => hc ⟨a, ha⟩⟩
  have move := exec_move ha h
  generalize p.next op r = p' at move
  cases move with
  | look hs _ _ => exact .inl (same hs.wallets)
  | stop hs _ _ => exact .inl (same hs.wallets)
  | @createWallet v cur w t _ ins =>
    rcases exec_walletCreate h with ⟨hs, -⟩ | ⟨-, w', t', rfl, ins', hs, -⟩
    · exact .inl (hs ▸ rfl)
    · rw [hs]
      by_cases hv : v = u
      · subst hv
        exact .inr ⟨answered rfl, .inl ⟨cur, rfl⟩⟩
      · have added := walletsOf_addWallet (u := u) ins'
        rw [if_neg fun hw => hv hw.1, List.append_nil] at added
        exact .inl added
  | @commit j tx t _ job session opened ledger _ _ =>
    by_cases hu : ∃ l ∈ j.legs, l.userId = u
    · exact .inr ⟨answered rfl, .inr ⟨rfl, j, job, hu⟩⟩
    · have applied : sh.book.apply j = some ((sh.install i tx t).note i o (.committed j)).book :=
        (sound.session hg job session opened).apply ledger
      exact .inl (walletsOf_apply applied fun l hl he => hu ⟨l, hl, he⟩)
  | _ => exact .inl rfl

/-- Jobs but deposits drop the entries of all whose wallets they write. -/
theorem Job.drops_of_leg {l : Leg} (hl : l ∈ j.legs) :
    (∃ d, j = .funding d) ∨ l.userId ∈ j.drops := by
  cases j with
  | funding d => exact .inl ⟨d, rfl⟩
  | withdrawal d =>
    rw [List.mem_singleton.mp hl]
    exact .inr (.head _)
  | transfer d =>
    rcases List.mem_cons.mp hl with rfl | hl
    · exact .inr (.head _)
    · rw [List.mem_singleton.mp hl]
      exact .inr (.tail _ (.head _))

end

end Pactic
