import Pactic.Protocol.Calls
import Pactic.Protocol.Handover
import Pactic.Wallets.Ledger
import Pactic.Wallets.Status

/-! # What the service says

A request row or a cached request that says `success`, and a notification that
is published or stored, is about something that has happened: a job that was
committed or a wallet that was created. A thread says so only after it has seen
the commit or the creation answered, or the row it repeats. -/
namespace Pactic
open Keyed Resumption

/-- The notifications of a job. -/
def Job.announcements : Job → List Notification
  | funding d => [⟨d.userId, "Wallet Funded", .funded d.currency (netAmount d.amount) (fee d.amount),
      "wallet"⟩]
  | withdrawal d => [⟨d.userId, "Wallet Withdrawn", .withdrawn d.amount d.currency, "wallet"⟩]
  | transfer d => [⟨d.senderId, "Transfer Successful", .sent d.amount d.recipientId, "wallet"⟩,
      ⟨d.recipientId, "Wallet Credited", .received d.amount d.senderId, "wallet"⟩]

/-- The notification of a new wallet. -/
def walletAnnouncement (userId : Int) (currency : String) : Notification :=
  ⟨userId, "Wallet Created", .created currency, "wallet"⟩

/-- The request that carries `t` has moved money, or made the wallet it asks for. -/
def Shared.Done (sh : Shared) (t : String) : Prop :=
  (∃ e ∈ sh.journal, ∃ j, e.event = .committed j ∧ j.txId = t) ∨
  ∃ e ∈ sh.journal, ∃ r w, e.origin.records? = some r ∧ r.txId = t ∧ e.event = .walletCreated w ∧
    w.userId = r.userId ∧ w.currency = r.currency

/-- What the notification tells has happened. -/
def Shared.Tells (sh : Shared) (n : Notification) : Prop :=
  (∃ e ∈ sh.journal, ∃ j, e.event = .committed j ∧ n ∈ j.announcements) ∨
  ∃ e ∈ sh.journal, ∃ w, e.event = .walletCreated w ∧ n = walletAnnouncement w.userId w.currency

/-- The status of a request is `success`, in its row or in the cache. -/
def Shared.Succeeded (sh : Shared) (t : String) : Prop :=
  (∃ r, sh.db.walletRequests.find? t = some r ∧ r.status = .success) ∨
  ∃ v, sh.redis (.walletRequest t) = some v ∧ v.status = .success

/-- The notification is stored, or a message about it was published. -/
def Shared.Announces (sh : Shared) (n : Notification) : Prop :=
  n ∈ sh.db.notifications ∨ ∃ m, sh.broker.Holds m ∧ m.data = .notification n

/-! ## What a thread has seen -/

/-- `created` holds the owner and the currency of the wallets made, `rows` the
request rows by the txId they were looked up by. -/
structure Witnessed where
  committed : Bool
  created : List (Int × String)
  rows : List (String × WalletRequest)

def Origin.MaySay (o : Origin) (p : Witnessed) : Op → Prop
  | .redis (.set (.walletRequest t) v) => v.status = .success →
      (p.committed = true ∧ ∃ j, o.job? = some j ∧ j.txId = t) ∨ ∃ r, (t, r) ∈ p.rows ∧ v = .row r
  | .prisma (.walletRequestCreate r) => r.status = .success →
      o.records? = some r ∧ (r.userId, r.currency) ∈ p.created
  | .prisma (.walletRequestUpdateMany _ s) => s ≠ .success
  | .prisma (.notificationCreate n) => ∃ m, o = .delivery m ∧ m.data = .notification n
  | .rabbit (.sendToQueue _ (.notification n) _) =>
      (p.committed = true ∧ ∃ j, o.job? = some j ∧ n ∈ j.announcements) ∨
      (∃ u c, (u, c) ∈ p.created ∧ n = walletAnnouncement u c) ∨
      ∃ m, o = .delivery m ∧ m.data = .notification n
  | _ => True

def Witnessed.next (p : Witnessed) : (o : Op) → Except Err o.Res → Witnessed
  | .tx .commit, .ok _ => { p with committed := true }
  | .prisma (.walletRequestFindUnique t), .ok (some r) => { p with rows := (t, r) :: p.rows }
  | .prisma (.walletRequestCreate row), .ok r => { p with rows := (row.txId, r) :: p.rows }
  | .prisma (.walletCreate u c), .ok _ => { p with created := (u, c) :: p.created }
  | _, _ => p

def honesty (o : Origin) : Monitor Op Op.Res Err Witnessed := ⟨o.MaySay, Witnessed.next⟩

def Witnessed.nothing : Witnessed := ⟨false, [], []⟩

/-- The call says nothing that would have to be true. -/
def Op.silent : Op → Bool
  | .redis (.set (.walletRequest _) _) => false
  | .prisma (.walletRequestCreate _) | .prisma (.walletRequestUpdateMany _ _)
  | .prisma (.notificationCreate _) => false
  | .rabbit (.sendToQueue _ (.notification _) _) => false
  | _ => true

section
variable {α β : Type} {o : Origin} {p : Witnessed} {j : Job}

theorem Op.silent_maySay {op : Op} (h : op.silent = true) : o.MaySay p op := by
  cases op with
  | redis op => cases op with
    | set k v => cases k <;> trivial
    | _ => trivial
  | prisma op => cases op <;> trivial
  | rabbit op => cases op with
    | sendToQueue q data x => cases data <;> trivial
    | _ => trivial
  | _ => trivial

/-- Nothing that was seen is forgotten. -/
structure Witnessed.Grows (p q : Witnessed) : Prop where
  committed : p.committed = true → q.committed = true
  created : p.created ⊆ q.created
  rows : p.rows ⊆ q.rows

theorem Witnessed.next_grows (p : Witnessed) (op : Op) (r : Except Err op.Res) :
    p.Grows (p.next op r) := by
  have same : p.Grows p := ⟨id, fun _ => id, fun _ => id⟩
  unfold next
  split
  · exact ⟨fun _ => rfl, fun _ => id, fun _ => id⟩
  · exact ⟨id, fun _ => id, List.subset_cons_self _ _⟩
  · exact ⟨id, fun _ => id, List.subset_cons_self _ _⟩
  · exact ⟨id, List.subset_cons_self _ _, fun _ => id⟩
  · exact same

/-- A condition on what was seen that only gets easier. -/
def Lasting (I : Witnessed → Prop) : Prop := ∀ p q, p.Grows q → I p → I q

theorem silent_tells {I : Witnessed → Prop} (hI : Lasting I) {c : Proc α}
    (h : c.Only fun op => op.silent = true) : (honesty o).Maintains I c :=
  .of_only (fun p op hp hop => ⟨Op.silent_maySay hop, fun r => hI p _ (p.next_grows op r) hp⟩) h

/-- One call, allowed because of what was seen. -/
theorem call_tells {I : Witnessed → Prop} (hI : Lasting I) {op : Op}
    (h : ∀ p, I p → o.MaySay p op) : (honesty o).Maintains I (call op) :=
  fun p hp => ⟨h p hp, fun r => hI p _ (p.next_grows op r) hp⟩

theorem lasting_true : Lasting fun _ => True := fun _ _ _ _ => trivial

theorem lasting_committed : Lasting fun p => p.committed = true := fun _ _ h hp => h.committed hp

theorem lasting_created (x : Int × String) : Lasting fun p => x ∈ p.created :=
  fun _ _ h hp => h.created hp

theorem lasting_row (x : String × WalletRequest) : Lasting fun p => x ∈ p.rows :=
  fun _ _ h hp => h.rows hp

theorem announce_tells {I : Witnessed → Prop} (hI : Lasting I) {q : Queue} {n : Notification} {x}
    (h : ∀ p, I p → o.MaySay p (.rabbit (.sendToQueue q (.notification n) x))) :
    (honesty o).Maintains I (sendToQueue q (.notification n) x) :=
  .tryCatch (.bind (silent_tells hI (.perform rfl)) fun _ => call_tells hI h) fun _ => .ret _

/-! ## The handlers -/

theorem Op.silent_of_statement {op : Op} (h : op.statement = true) : op.silent = true := by
  cases op with
  | tx op => rfl
  | _ => cases h

/-- A `$transaction` that returns was committed. -/
theorem transaction_tells {body : Proc α} {rest : α → Proc β} (h : Statements body)
    (hr : ∀ a, (honesty o).Maintains (·.committed = true) (rest a)) :
    (honesty o).Maintains (fun _ => True) (do
      let a ← Prisma.transaction body
      rest a) := by
  have inside : (honesty o).Maintains (fun _ => True) body :=
    silent_tells lasting_true (h.mono fun _ => Op.silent_of_statement)
  intro p _
  have whole : (honesty o).wp (Prisma.transaction body)
      (fun r q => ∀ a, r = .ok a → q.committed = true) p := by
    simp only [Prisma.transaction, Monitor.wp_bind, Monitor.wp_tryCatch, Monitor.wp_perform,
      forall_except_unit]
    refine ⟨trivial, (honesty o).wp_mono (inside _ trivial) fun r q _ => ?_, fun e => ?_⟩
    · cases r with
      | ok a => exact ⟨trivial, fun _ _ => rfl, fun e a h => by cases h⟩
      | error e => exact ⟨trivial, fun a h => (by cases h), fun e a h => by cases h⟩
    · intro a h
      cases h
  refine ((honesty o).wp_bind _ _ _ _).mpr ((honesty o).wp_mono whole fun r q hq => ?_)
  cases r with
  | ok a => exact (honesty o).wp_mono (hr a q (hq a rfl)) fun _ _ _ => trivial
  | error e => trivial

theorem setSuccess_tells (hj : o.job? = some j) : (honesty o).Maintains (·.committed = true)
    (Redis.set (.walletRequest j.txId) (.bare .success)) :=
  call_tells lasting_committed fun _ hp _ => .inl ⟨hp, j, hj, rfl⟩

theorem prependTransaction_silent (u row) :
    (prependTransaction u row).Only fun op => op.silent = true := by
  refine .bind (.perform rfl) fun cached => ?_
  cases cached with
  | none => trivial
  | some list => exact .perform rfl

theorem notify_tells (hj : o.job? = some j) {u title body}
    (hn : (⟨u, title, body, "wallet"⟩ : Notification) ∈ j.announcements) :
    (honesty o).Maintains (·.committed = true) (notify u title body) :=
  announce_tells lasting_committed fun _ hp => .inl ⟨hp, j, hj, hn⟩

theorem markFailed_tells (t : String) : (honesty o).Maintains (fun _ => True) (markFailed t) :=
  .bind (call_tells lasting_true fun _ _ => nofun) fun _ => call_tells lasting_true fun _ _ => nofun

theorem guarded_tells {c : Proc Unit} (h : (honesty o).Maintains (fun _ => True) c) (u cur t) :
    (honesty o).Maintains (fun _ => True) (do
      if ← alreadyProcessed t then pure ()
      else if ← preLog u cur t then c
      else pure ()) := by
  have processed : (honesty o).Maintains (fun _ => True) (alreadyProcessed t) := by
    refine silent_tells lasting_true (.bind (.perform rfl) fun cached => ?_)
    cases cached with
    | none => trivial
    | some parsed =>
      dsimp only
      split
      · trivial
      · exact .bind (.perform rfl) fun _ => trivial
  have logged : (honesty o).Maintains (fun _ => True) (preLog u cur t) := by
    refine .tryCatch (.bind (call_tells lasting_true fun _ _ => nofun) fun _ => .ret _) fun err => ?_
    split <;> exact .ret _
  refine processed.bind fun skip => ?_
  cases skip with
  | true => exact .ret _
  | false =>
    refine logged.bind fun mine => ?_
    cases mine with
    | true => exact h
    | false => exact .ret _

theorem Job.handler_tells (j : Job) (hj : o.job? = some j) :
    (honesty o).Maintains (fun _ => True) j.handler := by
  have still {γ : Type} {c : Proc γ} (h : c.Only fun op => op.silent = true) :
      (honesty o).Maintains (·.committed = true) c := silent_tells lasting_committed h
  cases j with
  | funding d =>
    refine .tryCatch (guarded_tells ?_ _ _ _) fun e => .bind (markFailed_tells _) fun _ => .ret _
    refine .bind (silent_tells lasting_true (.perform rfl)) fun w =>
      .bind (silent_tells lasting_true (checkWallet_only _ _ _ _)) fun _ => ?_
    exact transaction_tells (fundingTransaction_calls d) fun row => .bind (setSuccess_tells hj) fun _ =>
      .bind (still (prependTransaction_silent _ _)) fun _ => notify_tells hj (.head _)
  | withdrawal d =>
    refine .tryCatch (guarded_tells ?_ _ _ _) fun e => markFailed_tells _
    exact transaction_tells (withdrawalTransaction_calls d) fun row =>
      .bind (setSuccess_tells hj) fun _ => .bind (still (.perform rfl)) fun _ =>
        .bind (still (prependTransaction_silent _ _)) fun _ => notify_tells hj (.head _)
  | transfer d =>
    refine .tryCatch (guarded_tells ?_ _ _ _) fun e => .bind (markFailed_tells _) fun _ => .ret _
    have both {c c' : Proc Unit} (h : (honesty o).Maintains (·.committed = true) c)
        (h' : (honesty o).Maintains (·.committed = true) c') :
        (honesty o).Maintains (·.committed = true) (promiseAll c c') := by
      refine .bind (.tryCatch (.bind h fun _ => .ret _) fun _ => .ret _) fun a => ?_
      refine .bind (.tryCatch (.bind h' fun _ => .ret _) fun _ => .ret _) fun b => ?_
      cases a with
      | error e => exact .ret _
      | ok a => cases b <;> exact .ret _
    exact transaction_tells (transferTransaction_calls d) fun _ => .bind (setSuccess_tells hj) fun _ =>
      .bind (still (promiseAll_only (.perform rfl) (.perform rfl))) fun _ =>
        .bind (still (prependTransaction_silent _ _)) fun _ =>
          .bind (still (prependTransaction_silent _ _)) fun _ =>
            .bind (still (promiseAll_only (.perform rfl) (.perform rfl))) fun _ =>
              .bind (both (notify_tells hj (.head _)) (notify_tells hj (.tail _ (.head _))))
                fun _ => .ret _

/-! ## The deliveries and the requests -/

/-- A notification is passed on by its own delivery only. -/
theorem consume_tells {q : Queue} {handler : Proc Unit} {m : Message} (hm : o = .delivery m)
    (h : (honesty o).Maintains (fun _ => True) handler) :
    (honesty o).Maintains (fun _ => True) (consume q handler m) := by
  have again (q x) : (honesty o).Maintains (fun _ => True) (sendToQueue q m.data x) := by
    refine .tryCatch (.bind (silent_tells lasting_true (.perform rfl)) fun _ =>
      call_tells lasting_true fun p _ => ?_) fun _ => .ret _
    cases hd : m.data with
    | notification n => exact .inr (.inr ⟨m, hm, hd⟩)
    | _ => trivial
  have acked : (honesty o).Maintains (fun _ => True) (call (.rabbit (.ack m))) :=
    silent_tells lasting_true (.perform rfl)
  refine .tryCatch h fun _ => ?_
  split
  · exact .bind (again _ _) fun _ => acked
  · exact .bind (again _ _) fun _ => acked

theorem deliver_tells {m : Message} {c : Proc Unit} (h : deliver m = some c) :
    (honesty (.delivery m)).Maintains (fun _ => True) c := by
  unfold deliver at h
  split at h
  · next d _ hd =>
    cases h
    exact consume_tells rfl (Job.handler_tells (.funding d) (by simp only [Origin.job?, hd]))
  · next d _ hd =>
    cases h
    exact consume_tells rfl (Job.handler_tells (.withdrawal d) (by simp only [Origin.job?, hd]))
  · next d _ hd =>
    cases h
    exact consume_tells rfl (Job.handler_tells (.transfer d) (by simp only [Origin.job?, hd]))
  · next n _ hd =>
    cases h
    refine consume_tells rfl ?_
    unfold notificationHandler
    split
    · exact .ret _
    · exact .tryCatch (call_tells lasting_true fun _ _ => ⟨m, rfl, hd⟩) fun _ => .ret _
  · next l _ _ =>
    cases h
    exact consume_tells rfl (silent_tells lasting_true (.perform rfl))
  · cases h

theorem validateTokenUser_tells (u tok : Int) :
    (honesty o).Maintains (fun _ => True) (validateTokenUser u tok) := by
  unfold validateTokenUser
  split <;> exact .ret _

/-- A row that was looked up may be cached as it is. -/
theorem lookup_tells {t : String} {f : Option WalletRequest → Proc α}
    (hnone : (honesty o).Maintains (fun _ => True) (f none))
    (hsome : ∀ r p, (t, r) ∈ p.rows → (honesty o).wp (f (some r)) (fun _ _ => True) p) :
    (honesty o).Maintains (fun _ => True) (do
      let found ← Prisma.walletRequestFindUnique t
      f found) := by
  intro p _
  refine ((honesty o).wp_perform_bind _ _ _ _).mpr ⟨trivial, fun found => ?_, fun _ => trivial⟩
  cases found with
  | none => exact hnone _ trivial
  | some r => exact hsome r _ (.head _)

theorem setRow_tells {t : String} {r : WalletRequest} (hp : (t, r) ∈ p.rows) (x : Except Err α) :
    (honesty o).wp (do Redis.set (.walletRequest t) (.row r); .ret x) (fun _ _ => True) p := by
  have set : (honesty o).Maintains (fun p => (t, r) ∈ p.rows) (Redis.set (.walletRequest t) (.row r)) :=
    call_tells (lasting_row _) fun _ hp _ => .inr ⟨r, hp, rfl⟩
  exact (honesty o).wp_mono (set.bind (fun _ => .ret x) p hp) fun _ _ _ => trivial

theorem publishJob_silent (q : Queue) (j : Job) (x) :
    (sendToQueue q (.job j) x).Only fun op => op.silent = true :=
  .tryCatch (.bind (.perform rfl) fun _ => .perform rfl) fun _ => trivial

theorem enqueueUnlessUsed_tells (c q : String) (j : Job) :
    (honesty o).Maintains (fun _ => True) (WalletsService.enqueueUnlessUsed c q j) := by
  refine .bind (silent_tells lasting_true (.perform rfl)) fun cached => ?_
  split
  · exact .ret _
  refine lookup_tells ?_ fun r p hp => setRow_tells hp _
  exact .bind (silent_tells lasting_true (publishJob_silent _ _ _)) fun _ => .ret _

theorem fundWallet_tells (b : FundWalletDto) :
    (honesty o).Maintains (fun _ => True) (WalletsService.fundWallet b) := by
  refine .bind (silent_tells lasting_true (.perform rfl)) fun cached => ?_
  cases cached with
  | some v => exact .ret _
  | none =>
    refine lookup_tells ?_ fun r p hp => setRow_tells hp _
    exact .bind (silent_tells lasting_true (publishJob_silent _ _ _)) fun _ => .ret _

theorem prependWallet_silent (u : Int) (w : Wallet) :
    (WalletsService.prependWallet u w).Only fun op => op.silent = true := by
  refine .bind (.perform rfl) fun list => ?_
  cases list with
  | none => trivial
  | some ws => exact .perform rfl

theorem Lasting.and {I J : Witnessed → Prop} (hI : Lasting I) (hJ : Lasting J) :
    Lasting fun p => I p ∧ J p := fun p q h hp => ⟨hI p q h hp.1, hJ p q h hp.2⟩

/-- The wallet first, then the row that says so, then the notification. -/
theorem insertWallet_tells {u : Int} {c t : String} (ho : o.records? = some ⟨u, c, t, .success⟩) :
    (honesty o).Maintains (fun _ => True) (WalletsService.insertWallet u c t) := by
  have recorded (w : Wallet) (r : WalletRequest) :
      (honesty o).Maintains (fun p => (u, c) ∈ p.created ∧ (t, r) ∈ p.rows) (do
        Redis.set (.walletRequest t) (.row r)
        sendToQueue .notifications (.notification (walletAnnouncement u c)) none
        WalletsService.prependWallet u w
        pure w) := by
    have lasting := (lasting_created (u, c)).and (lasting_row (t, r))
    exact .bind (call_tells lasting fun _ hp _ => .inr ⟨r, hp.2, rfl⟩) fun _ =>
      .bind (announce_tells lasting fun _ hp => .inr (.inl ⟨u, c, hp.1, rfl⟩)) fun _ =>
        .bind (silent_tells lasting (prependWallet_silent u w)) fun _ => .ret _
  intro p _
  refine ((honesty o).wp_perform_bind _ _ _ _).mpr ⟨trivial, fun w => ?_, fun _ => trivial⟩
  refine ((honesty o).wp_perform_bind _ _ _ _).mpr
    ⟨fun _ => ⟨ho, .head _⟩, fun r => ?_, fun _ => trivial⟩
  exact (honesty o).wp_mono (recorded w r _ ⟨.head _, .head _⟩) fun _ _ _ => trivial

theorem createWallet_tells {u : Int} {c t : String} (ho : o.records? = some ⟨u, c, t, .success⟩) :
    (honesty o).Maintains (fun _ => True) (WalletsService.createWallet u c t) := by
  have unlessOwned : (honesty o).Maintains (fun _ => True)
      (WalletsService.createUnlessRecorded u c t none) := by
    simp only [WalletsService.createUnlessRecorded, Option.filter_none]
    refine .bind (silent_tells lasting_true (.perform rfl)) fun found => ?_
    cases found with
    | some w => exact .ret _
    | none => exact insertWallet_tells ho
  refine .bind (silent_tells lasting_true (.perform rfl)) fun cached => ?_
  split
  · exact .ret _
  refine lookup_tells unlessOwned fun r p hp => ?_
  by_cases hs : r.status = .success
  · simp only [WalletsService.createUnlessRecorded, Option.filter_some, hs, decide_true, if_true]
    exact setRow_tells hp _
  · have same : WalletsService.createUnlessRecorded u c t (some r) =
        WalletsService.createUnlessRecorded u c t none := by
      simp only [WalletsService.createUnlessRecorded, Option.filter_some, Option.filter_none, hs,
        decide_false, Bool.false_eq_true, if_false]
    rw [same]
    exact unlessOwned p trivial

theorem request_tells {r : Request} (hr : r.ofWallets = true) (tok : Int) :
    (honesty (.http tok r)).Maintains (fun _ => True) (r.program tok) := by
  cases r with
  | createWallet b =>
    exact .bind (validateTokenUser_tells _ _) fun _ => .bind (createWallet_tells rfl) fun _ => .ret _
  | fundWallet b => exact .bind (validateTokenUser_tells _ _) fun _ => fundWallet_tells b
  | withdrawFromWallet b =>
    exact .bind (validateTokenUser_tells _ _) fun _ => enqueueUnlessUsed_tells _ _ _
  | transferFunds b => exact .bind (validateTokenUser_tells _ _) fun _ => enqueueUnlessUsed_tells _ _ _
  | getUserWallets u =>
    refine .bind (validateTokenUser_tells _ _) fun _ => .bind (silent_tells lasting_true ?_) fun _ => .ret _
    refine .bind (.perform rfl) fun cached => ?_
    cases cached with
    | some ws => trivial
    | none => exact .bind (.perform rfl) fun _ => .bind (.perform rfl) fun _ => trivial
  | _ => cases hr

theorem service_honest {C : State → Step → Prop} (hC : ∀ s l, C s l → WalletRun s l) :
    Machine.Obeys service honesty (fun _ _ _ => True) (fun _ => .nothing) C := by
  intro s o sh hc ha
  cases o with
  | http tok r => exact request_tells (hC _ _ hc) tok _ trivial
  | delivery m =>
    obtain ⟨c, hc, hp⟩ := Origin.program_delivery (Origin.accept_delivery ha).2.1
    rw [show service.program (.delivery m) = _ from hp]
    exact Monitor.Maintains.bind (deliver_tells hc) (fun _ => .ret _) _ trivial

end

/-! ## What the state says -/

section
variable {s₀ sh sh' : Shared} {i : Nat} {o : Origin} {p p' : Witnessed} {n : Notification} {t : String}

/-- The thread has seen what happened: a commit, wallets made and rows that were there. -/
structure Grounded (s₀ sh : Shared) (o : Origin) (p : Witnessed) : Prop where
  committed : p.committed = true → ∀ j, o.job? = some j → ∃ e ∈ sh.journal, e.event = .committed j
  created : ∀ u c, (u, c) ∈ p.created → ∃ e ∈ sh.journal, ∃ w, e.origin = o ∧
    e.event = .walletCreated w ∧ w.userId = u ∧ w.currency = c
  rows : ∀ t r, (t, r) ∈ p.rows → r.status = .success → s₀.Succeeded t ∨ sh.Done t
  passed : ∀ m n, o = .delivery m → m.data = .notification n → s₀.Announces n ∨ sh.Tells n

/-- Whatever is said was said at the beginning or has happened since. -/
structure Honest (s₀ sh : Shared) (g : Machine.Ghost Origin Witnessed) : Prop where
  request : ∀ t, sh.Succeeded t → s₀.Succeeded t ∨ sh.Done t
  notification : ∀ n, sh.Announces n → s₀.Announces n ∨ sh.Tells n
  threads : ∀ {i o p}, g i = some (o, p) → Grounded s₀ sh o p

theorem Shared.Done.more {es} (h : sh.Done t) (hj : sh'.journal = sh.journal ++ es) : sh'.Done t := by
  rcases h with ⟨e, he, rest⟩ | ⟨e, he, rest⟩
  · exact .inl ⟨e, hj ▸ List.mem_append_left _ he, rest⟩
  · exact .inr ⟨e, hj ▸ List.mem_append_left _ he, rest⟩

theorem Shared.Tells.more {es} (h : sh.Tells n) (hj : sh'.journal = sh.journal ++ es) : sh'.Tells n := by
  rcases h with ⟨e, he, rest⟩ | ⟨e, he, rest⟩
  · exact .inl ⟨e, hj ▸ List.mem_append_left _ he, rest⟩
  · exact .inr ⟨e, hj ▸ List.mem_append_left _ he, rest⟩

theorem Grounded.more {es} (h : Grounded s₀ sh o p) (hj : sh'.journal = sh.journal ++ es) :
    Grounded s₀ sh' o p where
  committed hc j ho := by
    obtain ⟨e, he, rest⟩ := h.committed hc j ho
    exact ⟨e, hj ▸ List.mem_append_left _ he, rest⟩
  created u c hu := by
    obtain ⟨e, he, rest⟩ := h.created u c hu
    exact ⟨e, hj ▸ List.mem_append_left _ he, rest⟩
  rows t r ht hs := (h.rows t r ht hs).imp_right fun hd => hd.more hj
  passed m n ho hm := (h.passed m n ho hm).imp_right fun ht => ht.more hj

theorem Grounded.nothing (h : ∀ m n, o = .delivery m → m.data = .notification n →
    s₀.Announces n ∨ sh.Tells n) : Grounded s₀ sh o .nothing where
  committed := nofun
  created := nofun
  rows := nofun
  passed := h

theorem Origin.MaySay.done (g : Grounded s₀ sh o p) {r : WalletRequest}
    (h : o.MaySay p (.prisma (.walletRequestCreate r))) (hs : r.status = .success) :
    sh.Done r.txId := by
  obtain ⟨hr, hc⟩ := h hs
  obtain ⟨e, he, w, ho, hw, hu, hcur⟩ := g.created _ _ hc
  exact .inr ⟨e, he, r, w, ho ▸ hr, rfl, hw, hu, hcur⟩

/-- A row of a request turns to success when it is made so or its job is committed. -/
theorem exec_succeeds {g : Threads} {q : Local} {c : Choice} {op : Op} {r row}
    (sound : Sound sh g) (hg : g i = some (o, q)) (ha : o.Allows q op)
    (h : exec c i o op sh = some (sh', r)) (hf : sh'.db.walletRequests.find? t = some row)
    (hs : row.status = .success) : sh.Succeeded t ∨ sh'.Done t ∨
      op = .prisma (.walletRequestCreate row) ∧ row.txId = t := by
  have same (hr : sh'.db.walletRequests = sh.db.walletRequests) : sh.Succeeded t :=
    .inl ⟨row, hr ▸ hf, hs⟩
  have inserted {x : WalletRequest} {rows} (ins : sh.db.walletRequests.insert? x = some rows)
      (hr : rows.find? t = some row) : sh.Succeeded t ∨ x = row ∧ row.txId = t := by
    rw [Table.find?_of_insert? ins] at hr
    split at hr
    · next he => cases hr; exact .inr ⟨rfl, he⟩
    · exact .inl (.inl ⟨row, hr, hs⟩)
  generalize q.next op r = q' at *
  cases exec_move ha h with
  | look books _ _ => exact .inl (same books.walletRequests)
  | stop books _ _ => exact .inl (same books.walletRequests)
  | record _ ins _ _ =>
    rcases inserted ins hf with old | ⟨rfl, ht⟩
    · exact .inl old
    · exact .inr (.inr ⟨rfl, ht⟩)
  | preLog _ _ ins _ _ =>
    rcases inserted ins hf with old | ⟨rfl, ht⟩
    · exact .inl old
    · exact .inr (.inr ⟨rfl, ht⟩)
  | markFailed _ =>
    simp only [Shared.setRequests, setStatus_find?] at hf
    split at hf
    · obtain ⟨x, -, rfl⟩ := Option.map_eq_some_iff.mp hf
      cases hs
    · exact .inl (.inl ⟨row, hf, hs⟩)
  | @commit j tx _ _ job session opened _ _ _ =>
    have marked := (sound.session hg job session opened).requests.trans (if_pos rfl)
    simp only [Shared.note, Shared.install, Shared.rollback, marked, List.foldl_cons,
      List.foldl_nil, setStatus_find?] at hf
    split at hf
    · next he =>
      exact .inr (.inl (.inl ⟨⟨i, o, .committed j⟩,
        List.mem_append_right _ (List.mem_singleton_self _), j, rfl, he⟩))
    · exact .inl (.inl ⟨row, hf, hs⟩)
  | _ => exact .inl (same rfl)

/-- What is announced after a call was announced before it or is what the call says. -/
theorem exec_announces {q : Local} {c : Choice} {op : Op} {r} (ha : o.Allows q op)
    (h : exec c i o op sh = some (sh', r)) (hn : sh'.Announces n) : sh.Announces n ∨
      op = .prisma (.notificationCreate n) ∨
      ∃ queue x, op = .rabbit (.sendToQueue queue (.notification n) x) := by
  rcases hn with stored | ⟨m, held, hm⟩
  · have hu (id d) : op ≠ .prisma (.userUpdate id d) := by
      intro he
      subst he
      exact ha.elim
    rcases (exec_entries hu h).2.1 with same | ⟨n', rfl, added⟩
    · exact .inl (.inl (same ▸ stored))
    · rw [added] at stored
      rcases List.mem_append.mp stored with stored | new
      · exact .inl (.inl stored)
      · cases List.mem_singleton.mp new
        exact .inr (.inl rfl)
  · rcases exec_broker h with same | ⟨op', rfl, run⟩
    · exact .inl (.inr ⟨m, same ▸ held, hm⟩)
    · rcases RabbitOp.run_holds (run ▸ held) with held | ⟨queue, data, x, rfl, rfl⟩
      · exact .inl (.inr ⟨m, held, hm⟩)
      · cases hm
        exact .inr (.inr ⟨queue, x, rfl⟩)

/-- A cached status is set to success by the call that says so. -/
theorem exec_caches {c : Choice} {op : Op} {r v} (h : exec c i o op sh = some (sh', r))
    (hv : sh'.redis (.walletRequest t) = some v) (hs : v.status = .success) :
    sh.Succeeded t ∨ op = .redis (.set (.walletRequest t) v) := by
  rcases exec_redis h with same | ⟨op', rfl, -, run⟩
  · exact .inl (.inr ⟨v, same ▸ hv, hs⟩)
  rw [run] at hv
  cases op' with
  | get k => exact .inl (.inr ⟨v, hv, hs⟩)
  | set k x =>
    by_cases hk : (.walletRequest t : CacheKey) = k
    · subst hk
      simp only [RedisOp.run, Function.update_self] at hv
      cases hv
      exact .inr rfl
    · simp only [RedisOp.run, Function.update_of_ne hk] at hv
      exact .inl (.inr ⟨v, hv, hs⟩)
  | del k =>
    by_cases hk : (.walletRequest t : CacheKey) = k
    · subst hk
      simp only [RedisOp.run, Function.update_self] at hv
      cases hv
    · simp only [RedisOp.run, Function.update_of_ne hk] at hv
      exact .inl (.inr ⟨v, hv, hs⟩)

/-- A thread sees a commit, a wallet made or a row only when it is there. -/
theorem Grounded.next {c : Choice} {op : Op} {r} (h : Grounded s₀ sh o p)
    (honest : ∀ t, sh.Succeeded t → s₀.Succeeded t ∨ sh.Done t) (may : o.MaySay p op)
    (he : exec c i o op sh = some (sh', r)) : Grounded s₀ sh' o (p.next op r) := by
  obtain ⟨es, hj⟩ := exec_journal he
  have old := h.more hj
  unfold Witnessed.next
  split
  · -- the commit was answered
    refine { old with committed := fun _ j ho => ?_ }
    rcases exec_answer he with ⟨a, -, hrun⟩ | failed
    · simp only [Op.run, TxOp.run, Option.map_eq_some_iff] at hrun
      obtain ⟨tx, -, hrun⟩ := hrun
      unfold Shared.commit at hrun
      split at hrun
      · cases hrun
      · simp only [ho] at hrun
        cases hrun
        exact ⟨_, List.mem_append_right _ (List.mem_singleton_self _), rfl⟩
    · cases failed
  · next t r =>
    refine { old with rows := fun t' r' hr hs => ?_ }
    rcases List.mem_cons.mp hr with new | hr
    · cases new
      rcases exec_answer he with ⟨a, -, hrun⟩ | failed
      · simp only [Op.run, PrismaOp.run, Option.some.injEq, Prod.mk.injEq, Except.ok.injEq] at hrun
        exact (honest t (.inl ⟨r, hrun.2, hs⟩)).imp_right fun hd => hd.more hj
      · cases failed
    · exact old.rows t' r' hr hs
  · next row r =>
    refine { old with rows := fun t' r' hr hs => ?_ }
    rcases List.mem_cons.mp hr with new | hr
    · cases new
      rcases exec_answer he with ⟨a, -, hrun⟩ | failed
      · simp only [Op.run, PrismaOp.run] at hrun
        split at hrun
        · cases hrun
          exact .inr ((Origin.MaySay.done h may hs).more hj)
        · cases hrun
      · cases failed
    · exact old.rows t' r' hr hs
  · next u cur w =>
    refine { old with created := fun u' c' hu => ?_ }
    rcases List.mem_cons.mp hu with new | hu
    · cases new
      rcases exec_walletCreate he with ⟨-, e, failed⟩ | ⟨-, w', ws, hw, -, rfl, -⟩
      · cases failed
      · exact ⟨_, List.mem_append_right _ (List.mem_singleton_self _), w', rfl, rfl,
          by rw [hw], by rw [hw]⟩
    · exact old.created u' c' hu
  · exact old

theorem Honest.call {G : Machine.Ghost Origin Witnessed} {g : Threads} {q : Local} {c : Choice}
    {op : Op} {r} (h : Honest s₀ sh G) (hG : G i = some (o, p)) (sound : Sound sh g)
    (hg : g i = some (o, q)) (ha : o.Allows q op) (may : o.MaySay p op)
    (he : exec c i o op sh = some (sh', r)) :
    Honest s₀ sh' (Function.update G i (some (o, p.next op r))) := by
  obtain ⟨es, hj⟩ := exec_journal he
  have own := h.threads hG
  constructor
  · intro t said
    have before (old : sh.Succeeded t) : s₀.Succeeded t ∨ sh'.Done t :=
      (h.request t old).imp_right fun hd => hd.more hj
    rcases said with ⟨row, hf, hs⟩ | ⟨v, hv, hs⟩
    · rcases exec_succeeds sound hg ha he hf hs with old | done | ⟨rfl, rfl⟩
      · exact before old
      · exact .inr done
      · exact .inr ((Origin.MaySay.done own may hs).more hj)
    · rcases exec_caches he hv hs with old | rfl
      · exact before old
      · rcases may hs with ⟨hc, j, ho, rfl⟩ | ⟨row, hr, rfl⟩
        · obtain ⟨e, hmem, hev⟩ := own.committed hc j ho
          exact .inr (.more (.inl ⟨e, hmem, j, hev, rfl⟩) hj)
        · exact (own.rows t row hr hs).imp_right fun hd => hd.more hj
  · intro n said
    have passed {m : Message} (ho : o = .delivery m) (hm : m.data = .notification n) :
        s₀.Announces n ∨ sh'.Tells n := (own.passed m n ho hm).imp_right fun ht => ht.more hj
    rcases exec_announces ha he said with old | rfl | ⟨queue, x, rfl⟩
    · exact (h.notification n old).imp_right fun ht => ht.more hj
    · obtain ⟨m, ho, hm⟩ := may
      exact passed ho hm
    · rcases may with ⟨hc, j, ho, hn⟩ | ⟨u, cur, hu, rfl⟩ | ⟨m, ho, hm⟩
      · obtain ⟨e, hmem, hev⟩ := own.committed hc j ho
        exact .inr (.more (.inl ⟨e, hmem, j, hev, hn⟩) hj)
      · obtain ⟨e, hmem, w, -, hev, rfl, rfl⟩ := own.created u cur hu
        exact .inr (.more (.inr ⟨e, hmem, w, hev, rfl⟩) hj)
      · exact passed ho hm
  · intro k o' p' hk
    by_cases hki : k = i
    · subst hki
      rw [Function.update_self] at hk
      cases hk
      exact own.next h.request may he
    · rw [Function.update_of_ne hki] at hk
      exact (h.threads hk).more hj

/-- A delivery has what its message announces; a request has seen nothing. -/
theorem Honest.start {G : Machine.Ghost Origin Witnessed} (h : Honest s₀ sh G)
    (ha : o.accept sh = some sh') : Honest s₀ sh' (Function.update G i (some (o, .nothing))) := by
  have books := Origin.accept_same ha
  have hj : sh'.journal = sh.journal ++ [] := by rw [books.journal, List.append_nil]
  have announced (n) (hn : sh'.Announces n) : sh.Announces n := by
    rcases hn with stored | ⟨m, held, hm⟩
    · exact .inl (Origin.accept_db ha ▸ stored)
    · exact .inr ⟨m, Origin.accept_holds ha m held, hm⟩
  constructor
  · intro t said
    refine (h.request t ?_).imp_right fun hd => hd.more hj
    rcases said with ⟨row, hf, hs⟩ | ⟨v, hv, hs⟩
    · exact .inl ⟨row, books.walletRequests ▸ hf, hs⟩
    · exact .inr ⟨v, accept_redis ha ▸ hv, hs⟩
  · intro n said
    exact (h.notification n (announced n said)).imp_right fun ht => ht.more hj
  · intro k o' p' hk
    by_cases hki : k = i
    · subst hki
      rw [Function.update_self] at hk
      cases hk
      refine .nothing fun m n ho hm => ?_
      subst ho
      obtain ⟨ready, -, -⟩ := Origin.accept_delivery ha
      exact (h.notification n (.inr ⟨m, .inl ready, hm⟩)).imp_right fun ht => ht.more hj
    · rw [Function.update_of_ne hki] at hk
      exact (h.threads hk).more hj

theorem Honest.env {G : Machine.Ghost Origin Witnessed} {e : EnvStep} (h : Honest s₀ sh G)
    (he : e.run sh = some sh') : Honest s₀ sh' G := by
  have books := EnvStep.run_same he
  have hj : sh'.journal = sh.journal ++ [] := by rw [books.journal, List.append_nil]
  have stored : sh'.db.notifications = sh.db.notifications := by
    cases e with
    | expire k => cases he; rfl
    | tick => cases he; rfl
    | _ =>
      simp only [EnvStep.run] at he
      split at he <;> cases he
      rfl
  constructor
  · intro t said
    refine (h.request t ?_).imp_right fun hd => hd.more hj
    rcases said with ⟨row, hf, hs⟩ | ⟨v, hv, hs⟩
    · exact .inl ⟨row, books.walletRequests ▸ hf, hs⟩
    · exact .inr ⟨v, env_redis he hv, hs⟩
  · intro n said
    refine (h.notification n ?_).imp_right fun ht => ht.more hj
    rcases said with hn | ⟨m, held, hm⟩
    · exact .inl (stored ▸ hn)
    · exact .inr ⟨m, EnvStep.run_holds he m held, hm⟩
  · intro k o p hk
    exact (h.threads hk).more hj

end

/-! ## Every run -/

section
variable {s t : State}

theorem Honest.first (s₀ : Shared) : Honest s₀ s₀ fun _ => none :=
  ⟨fun _ => .inl, fun _ => .inl, nofun⟩

theorem Honest.follow {s₀ : Shared} {G G' : Machine.Ghost Origin Witnessed} {l : Step}
    (h : Honest s₀ s.shared G) (known : s.Known)
    (hf : Machine.Follows service .crashed honesty (fun _ => .nothing) s G l t G') :
    Honest s₀ t.shared G' := by
  obtain ⟨g, ht, sound⟩ := known
  cases hf with
  | start ha _ => exact h.start ha
  | run hi hG may he =>
    obtain ⟨q, hg, allowed, -⟩ := ht.called hi
    exact h.call hG sound hg allowed may he
  | env he => exact h.env he
  | kill _ _ =>
    refine ⟨h.request, h.notification, fun hk => ?_⟩
    have own := h.threads hk
    exact ⟨own.committed, own.created, own.rows, own.passed⟩

theorem Reach.honest (hq : Quiet s) (h : Reach WalletRun s t) :
    ∃ G, Honest s.shared t.shared G := by
  have obeys : Machine.Obeys service honesty (fun _ _ _ => True) (fun _ => .nothing)
      (fun u l => WalletRun u l ∧ State.Known u) := service_honest fun _ _ h => h.1
  obtain ⟨G, -, hG⟩ := Machine.Tracks.invariant (I := fun u G => Honest s.shared u.shared G) obeys
    (.of_nil hq.threads) (.first _) (fun _ _ _ _ _ hc _ hI hf => hI.follow hc.2 hf)
    (h.knowing_sound (fun _ _ => id) hq)
  exact ⟨G, hG⟩

/-- The wallet a `createWallet` request with this txId asks for was made by it,
and is there. -/
def Shared.Opened (sh : Shared) (txId : String) : Prop :=
  ∃ e ∈ sh.journal, ∃ tok b w, e.origin = .http tok (.createWallet b) ∧ b.txId = txId ∧
    e.event = .walletCreated w ∧ w.userId = b.userId ∧ w.currency = b.currency ∧
    ∃ w' ∈ sh.db.wallets.rows, w.Later w'

theorem Origin.records?_eq_some {o : Origin} {r : WalletRequest} (h : o.records? = some r) :
    ∃ tok b, o = .http tok (.createWallet b) ∧ r = ⟨b.userId, b.currency, b.txId, .success⟩ := by
  cases o with
  | delivery m => cases h
  | http tok r => cases r with
    | createWallet b =>
      cases h
      exact ⟨tok, b, rfl, rfl⟩
    | _ => cases h

/-- In every run, a request whose row or cache entry says success has moved its
money or has made its wallet, unless it said so at the beginning. -/
theorem success_is_never_a_lie (hq : Quiet s) (h : Reach WalletRun s t) {txId : String}
    (said : t.shared.Succeeded txId) :
    s.shared.Succeeded txId ∨ t.shared.Moved txId ∨ t.shared.Opened txId := by
  obtain ⟨G, honest⟩ := Reach.honest hq h
  have explains := h.explains (fun _ _ => id) hq
  rcases honest.request txId said with old | ⟨e, he, j, hj, rfl⟩ | ⟨e, he, r, w, hr, rfl, hw, hu, hc⟩
  · exact .inl old
  · have noted : .committed j ∈ t.shared.journal.map Entry.event := List.mem_map.mpr ⟨e, he, hj⟩
    exact .inr (.inl ⟨j, noted, rfl, (Book.replay_ledger explains).2 j noted⟩)
  · obtain ⟨tok, b, ho, rfl⟩ := Origin.records?_eq_some hr
    have there := Book.created_later explains (List.mem_map.mpr ⟨e, he, hw⟩)
    exact .inr (.inr ⟨e, he, tok, b, w, ho, rfl, hw, hu, hc, there⟩)

/-- What a notification tells is in the ledger, or its wallet is there. -/
def Shared.BearsOut (sh : Shared) (n : Notification) : Prop :=
  (∃ j, .committed j ∈ sh.journal.map Entry.event ∧ n ∈ j.announcements ∧
    ∀ d ∈ j.rows, d.store ∈ sh.db.transactions.rows) ∨
  ∃ w ∈ sh.db.wallets.rows, n = walletAnnouncement w.userId w.currency

/-- In every run, what a stored or published notification tells has happened,
unless it was announced at the beginning. -/
theorem announcements_are_true (hq : Quiet s) (h : Reach WalletRun s t) {n : Notification}
    (said : t.shared.Announces n) : s.shared.Announces n ∨ t.shared.BearsOut n := by
  obtain ⟨G, honest⟩ := Reach.honest hq h
  have explains := h.explains (fun _ _ => id) hq
  rcases honest.notification n said with old | ⟨e, he, j, hj, hn⟩ | ⟨e, he, w, hw, rfl⟩
  · exact .inl old
  · have noted : .committed j ∈ t.shared.journal.map Entry.event := List.mem_map.mpr ⟨e, he, hj⟩
    exact .inr (.inl ⟨j, noted, hn, (Book.replay_ledger explains).2 j noted⟩)
  · obtain ⟨w', hw', later⟩ := Book.created_later explains (List.mem_map.mpr ⟨e, he, hw⟩)
    exact .inr (.inr ⟨w', hw', by rw [later.userId, later.currency]⟩)

/-- The deposit is committed, its status is cached and its notification published. -/
def depositAnnounced : List Step := depositInto 10 ++ calls 2 4

theorem depositAnnounced_runs : ∃ t, runSteps depositAnnounced State.empty = some t ∧
    t.shared.Succeeded "a" ∧
    t.shared.Announces ⟨1, "Wallet Funded", .funded "USD" (netAmount 10) (fee 10), "wallet"⟩ := by
  have h : (runSteps depositAnnounced State.empty).any (fun t =>
      (t.shared.redis (.walletRequest "a")).any (fun v => v.status = .success) ∧
      t.shared.broker.ready.any fun m => m.data =
        .notification ⟨1, "Wallet Funded", .funded "USD" (netAmount 10) (fee 10), "wallet"⟩) =
      true := by decide +kernel
  obtain ⟨t, ht, hp⟩ := runSteps_any h
  obtain ⟨hr, hb⟩ := of_decide_eq_true hp
  obtain ⟨v, hv, hs⟩ := Option.any_eq_true _ _ |>.mp hr
  obtain ⟨m, hm, hd⟩ := List.any_eq_true.mp hb
  exact ⟨t, ht, .inr ⟨v, hv, of_decide_eq_true hs⟩, .inr ⟨m, .inl hm, of_decide_eq_true hd⟩⟩

theorem success_is_never_a_lie_deposit : ∃ t, runSteps depositAnnounced State.empty = some t ∧
    (State.empty.shared.Succeeded "a" ∨ t.shared.Moved "a" ∨ t.shared.Opened "a") := by
  obtain ⟨t, ht, said, -⟩ := depositAnnounced_runs
  exact ⟨t, ht, success_is_never_a_lie State.empty_quiet (reach_of_runSteps rfl ht) said⟩

theorem announcements_are_true_deposit : ∃ t, runSteps depositAnnounced State.empty = some t ∧
    (State.empty.shared.Announces ⟨1, "Wallet Funded", .funded "USD" (netAmount 10) (fee 10), "wallet"⟩ ∨
      t.shared.BearsOut ⟨1, "Wallet Funded", .funded "USD" (netAmount 10) (fee 10), "wallet"⟩) := by
  obtain ⟨t, ht, -, said⟩ := depositAnnounced_runs
  exact ⟨t, ht, announcements_are_true State.empty_quiet (reach_of_runSteps rfl ht) said⟩

end

end Pactic
