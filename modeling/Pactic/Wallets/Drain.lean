import Pactic.Rabbit.Payloads
import Pactic.Wallets.Rest

/-! # Draining the service

Left to itself the service comes to its end: an attempt at a job publishes its
announcements and, if it fails, the message once more, and a message has three
attempts. So what waits and what is in progress can cause a bounded number of
steps only, and until all of them are taken one of them can be. -/
namespace Pactic
open Keyed Resumption

variable {α β : Type}

/-! ## What waits can still cause -/

/-- How many notifications an attempt at this payload publishes at most. -/
def Payload.announcements : Payload → Nat
  | job (.transfer _) => 2
  | job _ => 1
  | notification _ | login _ => 0

/-- The steps that a waiting message can cause. Each attempt that is left is a
start, thirty calls and ninety-three steps for each announcement. -/
def Message.toil (m : Message) : Nat :=
  if m.queue = m.data.queue then (1 + (2 - m.attempts)) * (31 + 93 * m.data.announcements) else 0

example (n : Notification) : Message.toil ⟨.notifications, .notification n, none, 0⟩ = 93 := rfl

/-- The toil of the message that a call publishes. -/
def Op.posts : Op → Nat
  | .rabbit (.sendToQueue q data x) => Message.toil ⟨q, data, x, 0⟩
  | _ => 0

def Request.posts : Request → Nat
  | createWallet _ | login _ _ _ => 93
  | r => match r.job? with
    | some j => Message.toil ⟨j.queue, .job j, none, 0⟩
    | none => 0

/-- The toil of the message as it is published after a failed attempt. -/
def Message.retryToil (m : Message) : Nat :=
  Message.toil ⟨m.retryQueue, m.data, some (m.attempts + 1), 0⟩

/-- The toil of what a thread publishes at most. -/
def Origin.posts : Origin → Nat
  | http _ r => r.posts
  | delivery m => 93 * m.data.announcements + m.retryToil

def ServiceThread.toil (th : ServiceThread) : Nat :=
  if th.prog.finished then 0 else 30 + th.origin.posts

def State.toil (s : State) : Nat :=
  (s.shared.broker.ready.map Message.toil).sum + (s.threads.map ServiceThread.toil).sum

/-- An attempt costs less than it takes from its message. -/
theorem Message.toil_attempt {m : Message} (h : m.queue = m.data.queue) :
    30 + (Origin.delivery m).posts < m.toil := by
  have dead : m.data.queue ≠ .walletFundingDead := m.data.queue_ne_dead
  have now : m.toil = (1 + (2 - m.attempts)) * (31 + 93 * m.data.announcements) := if_pos h
  simp only [Origin.posts, now]
  by_cases last : 2 ≤ m.attempts
  · have gone : m.retryToil = 0 := by
      have buried : m.retryQueue = .walletFundingDead := if_pos last
      simp only [retryToil, toil, buried, if_neg (Ne.symm dead)]
    have one : 1 + (2 - m.attempts) = 1 := by omega
    rw [gone, one]
    omega
  · have again : m.retryToil = (1 + (2 - (m.attempts + 1))) * (31 + 93 * m.data.announcements) := by
      have back : m.retryQueue = m.data.queue := (if_neg last).trans h
      simp only [retryToil, toil, back, if_true]
      rfl
    have more : 1 + (2 - m.attempts) = 1 + (2 - (m.attempts + 1)) + 1 := by omega
    rw [again, more, Nat.add_mul (1 + (2 - (m.attempts + 1))) 1, Nat.one_mul]
    omega

/-! ## What a program publishes -/

abbrev Posts (n : Nat) (c : Proc α) : Prop := c.Costs Op.posts n

/-- A scope with nobody to write to. -/
def Scope.mute : Scope := ⟨False, fun _ => False, fun _ => False, fun _ => True⟩

theorem Scoped.posts {c : Proc α} (h : Scoped .mute c) (n : Nat) : Posts n c := by
  refine .of_only (h.mono fun op kept => ?_)
  cases op with
  | rabbit op =>
    cases op with
    | sendToQueue q data x =>
      obtain ⟨-, -, told⟩ := kept
      cases data <;> exact told.elim
    | _ => rfl
  | _ => rfl

/-- A call that publishes nothing comes before. -/
theorem Posts.after {c : Proc α} {f : α → Proc β} {n : Nat} (h : Scoped .mute c)
    (hf : ∀ a, Posts n (f a)) : Posts n (c >>= f) :=
  (Prog.Costs.bind (h.posts 0) hf).mono (by omega)

theorem sendToQueue_posts (q data x) :
    Posts (Message.toil ⟨q, data, x, 0⟩) (sendToQueue q data x) := by
  have sent : Posts (0 + Message.toil ⟨q, data, x, 0⟩ + 0) (sendToQueue q data x) :=
    .tryCatch (.bind (.perform _) fun _ => .perform _) fun _ => .ret _ _
  exact sent.mono (by omega)

theorem announce_posts (n : Notification) :
    Posts 93 (sendToQueue .notifications (.notification n) none) :=
  sendToQueue_posts .notifications (.notification n) none

theorem notify_posts (u t b) : Posts 93 (notify u t b) := announce_posts _

theorem fund_posts (d : FundWalletDto) : Posts 93 (fund d) :=
  .after (.perform trivial) fun _ => .after (checkWallet_only _ _ _ _) fun _ =>
    .after (transaction_scoped (fundingTransaction_calls d)) fun _ => .after (.perform trivial) fun _ =>
      .after (prependTransaction_scoped trivial) fun _ => notify_posts _ _ _

theorem withdraw_posts (d : WithdrawWalletDto) : Posts 93 (withdraw d) :=
  .after (transaction_scoped (withdrawalTransaction_calls d)) fun _ => .after (.perform trivial)
    fun _ => .after (.perform trivial) fun _ => .after (prependTransaction_scoped trivial) fun _ =>
      notify_posts _ _ _

theorem transfer_posts (d : TransferWalletDto) : Posts 186 (transfer d) := by
  have told (u v t t' b b') : Posts 186 (do
      let _ ← promiseAll (notify u t b) (notify v t' b')
      pure () : Proc Unit) :=
    .bind (m := 0) (promiseAll_costs (notify_posts _ _ _) (notify_posts _ _ _)) fun _ => .ret _ _
  exact .after (transaction_scoped (transferTransaction_calls d)) fun _ =>
    .after (.perform trivial) fun _ => .after (promiseAll_only (.perform trivial) (.perform trivial))
      fun _ => .after (prependTransaction_scoped trivial) fun _ =>
        .after (prependTransaction_scoped trivial) fun _ =>
          .after (promiseAll_only (.perform trivial) (.perform trivial)) fun _ => told _ _ _ _ _ _

theorem guarded_posts {c : Proc Unit} {n : Nat} (h : Posts n c) (u cur t) : Posts n (do
    if ← alreadyProcessed t then pure ()
    else if ← preLog u cur t then c
    else pure ()) := by
  refine .after (alreadyProcessed_scoped trivial) fun skip => ?_
  cases skip with
  | true => exact .ret _ _
  | false =>
    refine .after preLog_scoped fun mine => ?_
    cases mine with
    | true => exact h
    | false => exact .ret _ _

theorem Job.handler_posts (j : Job) : Posts (93 * (Payload.job j).announcements) j.handler := by
  have marked (t : String) (e : Err) : Posts 0 (do
      markFailed t
      throw e : Proc Unit) := .after (markFailed_scoped trivial) fun _ => .ret _ _
  cases j with
  | funding d => exact .tryCatch (m := 0) (guarded_posts (fund_posts d) _ _ _) (marked _)
  | withdrawal d =>
    exact .tryCatch (m := 0) (guarded_posts (withdraw_posts d) _ _ _) fun _ =>
      (markFailed_scoped trivial).posts 0
  | transfer d => exact .tryCatch (m := 0) (guarded_posts (transfer_posts d) _ _ _) (marked _)

theorem notificationHandler_posts (n : Notification) : Posts 0 (notificationHandler n) := by
  unfold notificationHandler
  split
  · exact .ret _ _
  · exact .tryCatch (n := 0) (m := 0) (.perform _) fun _ => .ret _ _

theorem consume_posts {m : Message} {handler : Proc Unit} {n : Nat} (h : Posts n handler) :
    Posts (n + m.retryToil) (consume m.queue handler m) := by
  have again (q : Queue) (hq : m.retryQueue = q) : Posts m.retryToil (do
      sendToQueue q m.data (some (m.attempts + 1))
      call (.rabbit (.ack m)) : Proc Unit) := by
    subst hq
    exact .bind (m := 0) (sendToQueue_posts _ _ _) fun _ => .perform _
  refine .tryCatch h fun _ => ?_
  split
  · next last => exact again _ (if_pos last)
  · next early => exact again _ (if_neg early)

theorem deliver_posts {m : Message} {c : Proc Unit} (h : deliver m = some c) :
    Posts (Origin.delivery m).posts c := by
  obtain ⟨handler, rfl, posts⟩ : ∃ handler, c = consume m.queue handler m ∧
      Posts (93 * m.data.announcements) handler := by
    unfold deliver at h
    split at h
    · next d hq hd => cases h; rw [hq, hd]; exact ⟨_, rfl, Job.handler_posts (.funding d)⟩
    · next d hq hd => cases h; rw [hq, hd]; exact ⟨_, rfl, Job.handler_posts (.withdrawal d)⟩
    · next d hq hd => cases h; rw [hq, hd]; exact ⟨_, rfl, Job.handler_posts (.transfer d)⟩
    · next n hq hd => cases h; rw [hq, hd]; exact ⟨_, rfl, notificationHandler_posts n⟩
    · next l hq hd => cases h; rw [hq, hd]; exact ⟨_, rfl, .perform _⟩
    · cases h
  exact consume_posts posts

/-! ## What a request publishes -/

theorem createWallet_posts (u c t) : Posts 93 (WalletsService.createWallet u c t) := by
  refine .after (.perform trivial) fun cached => ?_
  split
  · exact .ret _ _
  refine .after (.perform trivial) fun recorded => ?_
  unfold WalletsService.createUnlessRecorded
  split
  · exact .after (.perform trivial) fun _ => .ret _ _
  refine .after (.perform trivial) fun found => ?_
  cases found with
  | some w => exact .ret _ _
  | none =>
    refine .bind (n := 0) (m := 93) (.perform _) fun w => Posts.after (.perform trivial) fun _ =>
      .after (.perform trivial) fun _ => .bind (n := 93) (m := 0) (announce_posts _) fun _ =>
        Posts.after (.bind (.perform trivial) fun list => ?_) fun _ => .ret _ _
    cases list with
    | none => trivial
    | some ws => exact .perform trivial

theorem fundWallet_posts (b : FundWalletDto) :
    Posts (Message.toil ⟨.walletFunding, .job (.funding b), none, 0⟩) (WalletsService.fundWallet b) := by
  have queued := sendToQueue_posts .walletFunding (.job (.funding b)) none
  refine .after (.perform trivial) fun cached => ?_
  cases cached with
  | some v => exact .ret _ _
  | none =>
    refine .after (.perform trivial) fun found => ?_
    cases found with
    | some r => exact .after (.perform trivial) fun _ => .ret _ _
    | none => exact .bind (n := Message.toil _) (m := 0) queued fun _ => .ret _ _

theorem enqueueUnlessUsed_posts (c q : String) (j : Job) :
    Posts (Message.toil ⟨j.queue, .job j, none, 0⟩) (WalletsService.enqueueUnlessUsed c q j) := by
  refine .after (.perform trivial) fun cached => ?_
  split
  · exact .ret _ _
  · refine .after (.perform trivial) fun found => ?_
    cases found with
    | some r => exact .after (.perform trivial) fun _ => .ret _ _
    | none => exact .bind (m := 0) (sendToQueue_posts _ _ _) fun _ => .ret _ _

theorem login_posts (b : LoginUserDto) (ip ua : String) : Posts 93 (UsersService.login b ip ua) := by
  have logged (l) : Posts 93 (sendToQueue .loginLogs (.login l) none) :=
    sendToQueue_posts .loginLogs (.login l) none
  refine .after (.perform trivial) fun found => ?_
  cases found with
  | none =>
    exact .bind (n := 0) (m := 93) (.ret 0 _) fun ok => .bind (n := 93) (m := 0) (logged _)
      fun _ => .ret _ _
  | some u =>
    refine .after (.perform trivial) fun ok => .bind (n := 93) (m := 0) (logged _) fun _ => ?_
    dsimp only
    split
    · exact .ret _ _
    · split <;> exact .ret _ _

theorem Request.program_posts (tok : Int) (r : Request) : Posts r.posts (r.program tok) := by
  cases r with
  | createWallet b => exact checked_costs (answer_costs (createWallet_posts _ _ _) _) _ _
  | fundWallet b => exact checked_costs (fundWallet_posts b) _ _
  | getUserWallets u =>
    exact checked_costs (answer_costs ((getUserWallets_scoped trivial).posts _) _) _ _
  | withdrawFromWallet b => exact checked_costs (enqueueUnlessUsed_posts _ _ _) _ _
  | transferFunds b => exact checked_costs (enqueueUnlessUsed_posts _ _ _) _ _
  | signup b => exact answer_costs ((create_scoped b).posts _) _
  | login b ip ua => exact answer_costs (login_posts b ip ua) _
  | getProfile u =>
    exact checked_costs (answer_costs ((getProfile_scoped trivial).posts _) _) _ _
  | updateProfile body client =>
    have updated (u dto) : Scoped .mute (UsersService.updateProfile client u dto) :=
      .bind (.perform trivial) fun _ => .bind (.perform trivial) fun _ => .bind (.perform trivial)
        fun _ => trivial
    simp only [program, UsersController.updateProfile]
    split
    · exact .ret _ _
    · exact checked_costs (answer_costs ((updated _ _).posts _) _) _ _
  | deleteUser u => exact checked_costs ((deleteUser_scoped trivial).posts _) _ _

theorem Origin.program_posts (o : Origin) : Posts o.posts o.program := by
  cases o with
  | http tok r => exact r.program_posts tok
  | delivery m =>
    refine .bind (m := 0) ?_ fun _ => .ret _ _
    cases hd : deliver m with
    | none => exact .ret _ _
    | some c => exact deliver_posts hd

/-! ## Draining -/

/-- Nothing comes from outside: a call, or the delivery of a message that waits. -/
def Unfed (_ : State) : Step → Prop
  | .run _ _ | .start (.delivery _) => True
  | _ => False

/-- Runs of `n` steps that meet `C`. -/
abbrev ReachIn (C : State → Step → Prop) (s t : State) (n : Nat) : Prop :=
  service.Counts .crashed (fun _ _ => 1) (fun _ => C) s t n

/-- A step that drains: its call is answered, and no transfer is delivered that
closes a circle of payments. -/
structure Draining (s : State) (l : Step) : Prop where
  unfed : Unfed s l
  answered : ∀ i c, l = .run i c → c.answers = true
  noCircle : NoCircle s l

/-- Nothing is in progress, no wallet is locked, and what waits are dead letters
that have failed three times. -/
structure State.Dry (s : State) : Prop where
  idle : s.idle = true
  locks : ∀ id, s.shared.locks id = none
  dead : ∀ m ∈ s.shared.broker.ready, m.queue = .walletFundingDead ∧ m.attempts = 3

def Op.cost (op : Op) : Nat := 1 + op.posts

theorem Origin.program_costs (o : Origin) : o.program.Costs Op.cost (30 + o.posts) :=
  o.program_within.add o.program_posts

/-- What is put into the broker comes from the call that puts it there. -/
theorem exec_toil {sh sh' : Shared} {c : Choice} {i : Nat} {o : Origin} {op : Op} {r}
    (h : exec c i o op sh = some (sh', r)) : (sh'.broker.ready.map Message.toil).sum ≤
      (sh.broker.ready.map Message.toil).sum + op.posts := by
  rcases exec_broker h with hb | ⟨op', rfl, hb⟩
  · rw [hb]
    omega
  · rw [hb]
    cases op' with
    | assertQueue q => exact Nat.le_add_right _ _
    | sendToQueue q data x =>
      simp only [RabbitOp.run, List.map_append, List.sum_append, List.map_cons, List.map_nil,
        List.sum_cons, List.sum_nil]
      exact le_rfl
    | ack m => exact Nat.le_add_right _ _

/-- A delivery is paid by its message, a call by its thread. -/
theorem drains_spend : Machine.Spends (fun sh => (sh.broker.ready.map Message.toil).sum)
    (fun _ n => n) service (fun _ => spending Op.cost) (fun o => 30 + o.posts) (fun _ => 0) Unfed where
  start s o sh hc ha := by
    cases o with
    | http tok r => exact hc.elim
    | delivery m =>
      obtain ⟨ready, taken, rfl⟩ := Origin.accept_delivery ha
      have spent := Message.toil_attempt (deliver_isSome_iff.mp taken)
      have rest := List.sum_map_erase Message.toil ready
      dsimp only
      omega
  run s i o op k c sh r p hc hi paid he := by
    have brought := exec_toil he
    have cost : 1 + op.posts ≤ p := paid
    show 0 + _ + (p - (1 + op.posts)) < _
    omega
  env s e sh hc he := hc.elim
  kill s i hc := hc

theorem toil_bounds {s t u : State} {C : State → Step → Prop} (hs : s.threads = [])
    (h : Reach C s t) {n : Nat} (hn : ReachIn Unfed t u n) : n ≤ t.toil := by
  have costs := Machine.Reach.costs Origin.program_costs hs h
  refine drains_spend.length_le (f := ServiceThread.toil) Origin.program_costs (fun th hth => ?_) hn
  obtain ⟨o, q⟩ := th
  cases q with
  | ret r => trivial
  | call op k => exact costs _ hth

/-- An idle service may deliver whatever waits. -/
theorem noCircle_of_idle {s : State} (h : s.idle = true) (m : Message) :
    NoCircle s (.start (.delivery m)) := by
  refine ⟨rfl, fun m' d _ _ apart circle => ?_⟩
  rcases Relation.ReflTransGen.cases_head circle with same | ⟨a, ⟨-, th, hth, d', -, busy, -⟩, -⟩
  · exact apart same.symm
  · have ended := List.all_eq_true.mp h th hth
    rw [busy] at ended
    cases ended

/-- A service that is not yet drained can go on. -/
theorem dry_or_moves {s t : State} (hq : Quiet s)
    (hb : ∀ m, s.shared.broker.Holds m → m.Routed) (h : Reach NoCircle s t) :
    t.Dry ∨ ∃ l u, Draining t l ∧ step t l = some u := by
  rcases Reach.rests_or_moves hq h with ⟨idle, locks⟩ | ⟨i, a, u, hs⟩
  · by_cases waits : ∃ m ∈ t.shared.broker.ready, m.queue = m.data.queue
    · obtain ⟨m, hm, here⟩ := waits
      obtain ⟨u, hs⟩ := Option.isSome_iff_exists.mp (step_delivery hm here)
      exact .inr ⟨.start (.delivery m), u, ⟨trivial, fun i c he => (by cases he),
        noCircle_of_idle idle m⟩, hs⟩
    · refine .inl ⟨idle, locks, fun m hm => ?_⟩
      rcases Reach.routed hq.threads hb h (.inl hm) with ⟨here, -⟩ | dead
      · exact absurd ⟨m, hm, here⟩ waits
      · exact dead
  · have answered : ∀ j c, (.run i (.ok a) : Step) = .run j c → c.answers = true := by
      intro j c he
      cases he
      rfl
    exact .inr ⟨.run i (.ok a), u, ⟨trivial, answered, rfl, fun m d he => by cases he⟩, hs⟩

/-- Whenever no more requests come in, the service drains. Until something comes
from outside again, what it still does is bounded by what waits and what is in
progress, whatever fails. While no transfer closes a circle of payments it is
never stuck before it is drained: some call can be answered, or some message can
be delivered. So it does get drained. -/
theorem service_drains {s t : State} (hq : Quiet s)
    (hb : ∀ m, s.shared.broker.Holds m → m.Routed) (h : Reach NoCircle s t) :
    (∀ u n, ReachIn Unfed t u n → n ≤ t.toil) ∧
    (∀ u n, ReachIn Draining t u n → u.Dry ∨ ∃ l v, Draining u l ∧ step u l = some v) ∧
    ∃ u n, ReachIn Draining t u n ∧ u.Dry := by
  have bound {u n} (hn : ReachIn Unfed t u n) : n ≤ t.toil := toil_bounds hq.threads h hn
  have progress {u n} (hn : ReachIn Draining t u n) :
      u.Dry ∨ ∃ l v, Draining u l ∧ step u l = some v :=
    dry_or_moves hq hb (h.trans (hn.reach.mono fun _ _ hc => hc.noCircle))
  refine ⟨fun u n => bound, fun u n => progress, ?_⟩
  exact Machine.Counts.exists_end (N := t.toil) (fun u n hn => bound (hn.mono fun _ _ hc => hc.unfed))
    fun u n => progress

/-- A deposit that has failed once waits for its second attempt, and its first
delivery is not acknowledged yet. -/
theorem service_drains_retried : ∃ t, Reach NoCircle State.empty t ∧ t.toil = 619 ∧
    (∀ u n, ReachIn Unfed t u n → n ≤ t.toil) ∧
    (∀ u n, ReachIn Draining t u n → u.Dry ∨ ∃ l v, Draining u l ∧ step u l = some v) ∧
    ∃ u n, ReachIn Draining t u n ∧ u.Dry := by
  have h : (service.runsIf .crashed noPayback acceptedAndRetried State.empty).any (fun t =>
      decide (State.toil t = 619)) = true := by decide +kernel
  obtain ⟨t, ht, toil⟩ := Option.any_eq_true _ _ |>.mp h
  have reach := Machine.reach_of_runsIf (fun _ _ => noCircle_of_noPayback) ht
  refine ⟨t, reach, of_decide_eq_true toil, service_drains State.empty_quiet (fun m hm => ?_) reach⟩
  rcases hm with hm | hm | hm <;> cases hm

end Pactic
