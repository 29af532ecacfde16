import Pactic.Lib.Potential
import Pactic.Protocol.Scope
import Pactic.Wallets.Delivery

/-! # The way of a message

Every payload is published into the queue of its kind. A failed delivery goes
back there twice and then to the dead letters, which nothing consumes. Nobody
acknowledges a message before its payload is published again, so a copy is gone
only where a publication has failed. -/
namespace Pactic
open Resumption

/-! ## Queues and payloads -/

theorem Payload.queue_ne_dead (d : Payload) : d.queue ≠ .walletFundingDead := by
  cases d with
  | job j => cases j <;> simp [queue, Job.queue]
  | notification n => simp [queue]
  | login l => simp [queue]

/-- The queue of its payload is the one place where a message is consumed. -/
theorem deliver_isSome_iff {m : Message} : (deliver m).isSome = true ↔ m.queue = m.data.queue := by
  obtain ⟨q, d, x, n⟩ := m
  cases d with
  | job j => cases j <;> cases q <;> simp [deliver, Payload.queue, Job.queue]
  | notification n => cases q <;> simp [deliver, Payload.queue]
  | login l => cases q <;> simp [deliver, Payload.queue]

/-- A message waits for one of its three attempts, or is dead after the third. -/
def Message.Routed (m : Message) : Prop :=
  m.queue = m.data.queue ∧ m.attempts ≤ 2 ∨ m.queue = .walletFundingDead ∧ m.attempts = 3

/-- Of the messages that are routed, those with a consumer have an attempt left. -/
theorem Message.Routed.consumed {m : Message} (h : m.Routed) (hm : (deliver m).isSome = true) :
    m.queue = m.data.queue ∧ m.attempts ≤ 2 := by
  have here := deliver_isSome_iff.mp hm
  rcases h with h | ⟨dead, -⟩
  · exact h
  · rw [here] at dead
    exact absurd dead m.data.queue_ne_dead

/-- A failed attempt goes where it is routed. -/
theorem Message.Routed.retried {m : Message} (h : m.queue = m.data.queue ∧ m.attempts ≤ 2) (n : Nat) :
    Message.Routed ⟨m.retryQueue, m.data, some (m.attempts + 1), n⟩ := by
  obtain ⟨here, few⟩ := h
  by_cases last : 2 ≤ m.attempts
  · refine .inr ⟨if_pos last, ?_⟩
    simp only [attempts, Option.getD_some] at last few ⊢
    omega
  · refine .inl ⟨(if_neg last).trans here, ?_⟩
    simp only [attempts, Option.getD_some] at last ⊢
    omega

/-! ## Publishing again before the acknowledgement -/

/-- The queue a failed delivery publishes to. -/
def Origin.retries (o : Origin) (q : Queue) : Bool :=
  match o with
  | delivery m => m.retryQueue = q
  | http _ _ => false

/-- Announcements, the payload of the own message once more, and after that the
acknowledgement of it. -/
def Origin.Republishes (o : Origin) (p : Custody) : Op → Prop
  | .rabbit (.sendToQueue q data x) => (q = data.queue ∧ x = none) ∨
      ∃ m, o = .delivery m ∧ q = m.retryQueue ∧ data = m.data ∧ x = some (m.attempts + 1)
  | .rabbit (.ack m) => o = .delivery m ∧ p = .handed
  | _ => True

def Origin.republished (o : Origin) (p : Custody) : (op : Op) → Except Err op.Res → Custody
  | .rabbit (.assertQueue q), .error _ => if o.retries q then .handed else p
  | .rabbit (.sendToQueue _ _ (some _)), _ => .handed
  | .rabbit (.ack _), _ => .holding
  | _, _ => p

def republication (o : Origin) : Monitor Op Op.Res Err Custody := ⟨o.Republishes, o.republished⟩

theorem Scoped.republication {α : Type} {a : Scope} {c : Proc α} (h : Scoped a c) (o : Origin)
    (p : Custody) : (Pactic.republication o).wp c (fun _ _ => True) p := by
  refine Monitor.wp_of_keeps _ (I := fun _ => True) (fun p op _ hop => ⟨?_, fun _ => trivial⟩) h trivial
  cases op with
  | rabbit op =>
    cases op with
    | assertQueue q => trivial
    | sendToQueue q data x => exact .inl ⟨hop.1, hop.2.1⟩
    | ack m => exact hop.elim
  | _ => trivial

/-- After the retry of a delivery, published or failed, it may be acknowledged. -/
theorem retried_wp {m : Message} {p : Custody} {Q : Except Err Unit → Custody → Prop}
    (hQ : Q (.ok ()) .handed) : (republication (.delivery m)).wp
      (sendToQueue m.retryQueue m.data (some (m.attempts + 1))) Q p := by
  refine (Monitor.wp_tryCatch _ _ _ _ _).mpr ((Monitor.wp_bind _ _ _ _ _).mpr ⟨trivial, ?_⟩)
  have mine : (Origin.delivery m).retries m.retryQueue = true := by simp [Origin.retries]
  refine forall_except_unit.mpr ⟨⟨.inr ⟨m, rfl, rfl, rfl, rfl⟩, ?_⟩, fun _ => ?_⟩
  · exact forall_except_unit.mpr ⟨hQ, fun _ => hQ⟩
  · show Q (.ok ()) (if (Origin.delivery m).retries m.retryQueue then .handed else p)
    rw [if_pos mine]
    exact hQ

theorem consume_republishes {m : Message} {a : Scope} {handler : Proc Unit} (hh : Scoped a handler) :
    (republication (.delivery m)).wp (consume m.queue handler m) (fun _ _ => True) .holding := by
  refine (Monitor.wp_tryCatch _ _ _ _ _).mpr (Monitor.wp_mono _ (hh.republication _ _) fun r p _ => ?_)
  cases r with
  | ok _ => trivial
  | error e =>
    have acked (q : Queue) (hq : q = m.retryQueue) : (republication (.delivery m)).wp (do
        sendToQueue q m.data (some (m.attempts + 1))
        call (.rabbit (.ack m))) (fun _ _ => True) p := by
      subst hq
      exact (Monitor.wp_bind _ _ _ _ _).mpr (retried_wp ⟨⟨rfl, rfl⟩, fun _ => trivial⟩)
    dsimp only
    split
    · next last => exact acked _ (if_pos last).symm
    · next again => exact acked _ (if_neg again).symm

theorem service_republishes (C : State → Step → Prop) :
    Machine.Obeys service republication (fun _ _ _ => True) (fun _ => .holding) C := by
  intro s o sh _ ha
  cases o with
  | http tok r => exact (Request.program_scoped tok r).republication _ _
  | delivery m =>
    obtain ⟨c, hc, program⟩ := Origin.program_delivery (Origin.accept_delivery ha).2.1
    obtain ⟨handler, rfl, hh⟩ := deliver_scoped hc
    show (republication _).wp (Origin.delivery m).program _ _
    rw [program]
    refine (Monitor.wp_bind _ _ _ _ _).mpr (Monitor.wp_mono _ (consume_republishes hh) fun r p _ => ?_)
    cases r with
    | ok _ => trivial
    | error _ => trivial

/-! ## Every message is routed -/

/-- The messages in the broker are routed, and those being delivered have an
attempt left. -/
structure AllRouted (sh : Shared) (g : Carriers) : Prop where
  message : ∀ m, sh.broker.Holds m → m.Routed
  delivered : ∀ i m p, g i = some (.delivery m, p) → m.queue = m.data.queue ∧ m.attempts ≤ 2

section
variable {sh sh' : Shared} {g : Carriers} {i : Nat} {o : Origin} {p p' : Custody}

theorem AllRouted.update (h : AllRouted sh g) (hb : ∀ m, sh'.broker.Holds m → m.Routed)
    (hd : ∀ m, o = .delivery m → m.queue = m.data.queue ∧ m.attempts ≤ 2) :
    AllRouted sh' (Function.update g i (some (o, p'))) := by
  refine ⟨hb, fun k m q hk => ?_⟩
  by_cases hki : k = i
  · subst hki
    rw [Function.update_self] at hk
    cases hk
    exact hd m rfl
  · rw [Function.update_of_ne hki] at hk
    exact h.delivered k m q hk

theorem AllRouted.start (h : AllRouted sh g) (ha : o.accept sh = some sh') :
    AllRouted sh' (Function.update g i (some (o, p'))) := by
  refine h.update (fun m hm => h.message m (Origin.accept_holds ha m hm)) fun m he => ?_
  subst he
  obtain ⟨ready, taken, -⟩ := Origin.accept_delivery ha
  exact (h.message m (.inl ready)).consumed taken

theorem AllRouted.call {c : Choice} {op : Op} {r} (h : AllRouted sh g) (hg : g i = some (o, p))
    (ha : o.Republishes p op) (he : exec c i o op sh = some (sh', r)) :
    AllRouted sh' (Function.update g i (some (o, p'))) := by
  refine h.update (fun m hm => ?_) fun m ho => h.delivered i m p (ho ▸ hg)
  rcases exec_broker he with hb | ⟨op', rfl, hb⟩
  · exact h.message m (hb ▸ hm)
  · rcases RabbitOp.run_holds (hb ▸ hm) with hm | ⟨q, data, x, rfl, rfl⟩
    · exact h.message m hm
    · rcases ha with ⟨rfl, rfl⟩ | ⟨m', rfl, rfl, rfl, rfl⟩
      · exact .inl ⟨rfl, Nat.zero_le _⟩
      · exact Message.Routed.retried (h.delivered i m' p hg) _

end

theorem allRouted_stable (C : State → Step → Prop) (K : Shared → Carriers → Prop) :
    Machine.Stable service republication (fun _ => .holding) C K AllRouted where
  start _ _ _ _ _ _ _ _ h _ ha := h.start ha
  run _ _ _ _ _ _ _ _ _ _ _ _ _ h hg ha he := h.call hg ha he
  env _ _ _ _ _ _ h he := ⟨fun m hm => h.message m (EnvStep.run_holds he m hm), h.delivered⟩
  kill _ _ _ _ _ h := ⟨h.message, h.delivered⟩

theorem Reach.routed {C : State → Step → Prop} {s t : State} (hs : s.threads = [])
    (hb : ∀ m, s.shared.broker.Holds m → m.Routed) (h : Reach C s t) {m : Message}
    (hm : t.shared.broker.Holds m) : m.Routed := by
  obtain ⟨g, -, routed⟩ := (allRouted_stable C fun _ _ => True).invariant
    (service_republishes C) (.of_nil hs) ⟨hb, fun _ _ _ hg => by cases hg⟩ h
  exact routed.message m hm

/-- A message in its own queue can be delivered. -/
theorem step_delivery {s : State} {m : Message} (hm : m ∈ s.shared.broker.ready)
    (here : m.queue = m.data.queue) : (step s (.start (.delivery m))).isSome := by
  have taken := deliver_isSome_iff.mpr here
  simp [step, Machine.step, service, Origin.accept, hm, taken]

/-- Whatever runs and fails, no message gets stuck: one that waits outside the
dead letters has an attempt left and can be delivered at once, and one that is
dead has failed three times and is never delivered again. -/
theorem waiting_messages_are_consumed {s t : State} (hs : s.threads = [])
    (hb : ∀ m, s.shared.broker.Holds m → m.Routed) (h : Reach (fun _ _ => True) s t) {m : Message}
    (hm : m ∈ t.shared.broker.ready) :
    (m.attempts ≤ 2 ∧ m.queue = m.data.queue ∧ (step t (.start (.delivery m))).isSome) ∨
      (m.attempts = 3 ∧ m.queue = .walletFundingDead ∧ step t (.start (.delivery m)) = none) := by
  rcases Reach.routed hs hb h (.inl hm) with ⟨here, few⟩ | ⟨dead, three⟩
  · exact .inl ⟨few, here, step_delivery hm here⟩
  · have left : ¬ (deliver m).isSome = true := by
      intro taken
      rw [deliver_isSome_iff, dead] at taken
      exact m.data.queue_ne_dead taken.symm
    refine .inr ⟨three, dead, ?_⟩
    simp only [step, Machine.step, service, Origin.accept, left, and_false, if_false, Option.map_none,
      Bool.false_eq_true]

/-- A deposit that has failed once waits for its second attempt. -/
theorem waiting_messages_are_consumed_retried : ∃ (t : State) (m : Message),
    Reach (fun _ _ => True) State.empty t ∧ m ∈ t.shared.broker.ready ∧ m.attempts = 1 ∧
      ((m.attempts ≤ 2 ∧ m.queue = m.data.queue ∧ (step t (.start (.delivery m))).isSome) ∨
        (m.attempts = 3 ∧ m.queue = .walletFundingDead ∧ step t (.start (.delivery m)) = none)) := by
  have h : (runSteps acceptedAndRetried State.empty).any (fun t =>
      decide (⟨.walletFunding, .job (.funding lostDeposit), some 1, 1⟩ ∈ t.shared.broker.ready)) = true := by
    decide +kernel
  obtain ⟨t, ht, waits⟩ := runSteps_any h
  have reach : Reach (fun _ _ => True) State.empty t :=
    Machine.reach_of_runs (fun _ _ _ => trivial) ht
  have waits := of_decide_eq_true waits
  refine ⟨t, _, reach, waits, rfl, waiting_messages_are_consumed rfl (fun m hm => ?_) reach waits⟩
  rcases hm with hm | hm | hm <;> cases hm

/-! ## Where a copy can go -/

/-- The copies of a payload that wait or are being delivered. -/
def Broker.copies (b : Broker) (d : Payload) : Nat :=
  (b.ready ++ b.unacked).countP fun m => m.data = d

def Origin.payload? : Origin → Option Payload
  | delivery m => some m.data
  | http _ _ => none

/-- The call answers. -/
def Choice.answers : Choice → Bool
  | .ok _ => true
  | _ => false

/-- The call takes effect, whether or not it answers. -/
def Choice.acts : Choice → Bool
  | .fail => false
  | _ => true

/-- One for a call with which a delivery of `d` fails to publish it again. -/
def Origin.unpublished (d : Payload) (o : Origin) (c : Choice) : Op → Nat
  | .rabbit (.assertQueue q) =>
    if o.payload? = some d ∧ o.retries q = true ∧ c.answers = false then 1 else 0
  | .rabbit (.sendToQueue _ data (some _)) => if data = d ∧ c.acts = false then 1 else 0
  | _ => 0

def unpublished (d : Payload) (s : State) : Step → Nat
  | .run i c => match s.threads[i]? with
    | some ⟨o, .call op _⟩ => o.unpublished d c op
    | _ => 0
  | _ => 0

/-- The copy of `d` that a delivery which has published it again may acknowledge. -/
def owed (d : Payload) (o : Origin) : Custody → Nat
  | .handed => if o.payload? = some d then 1 else 0
  | .holding => 0

section
variable {d : Payload} {sh sh' : Shared} {i : Nat} {o : Origin} {p : Custody} {b b' : Broker}

theorem owed_le_one (p : Custody) : owed d o p ≤ 1 := by
  cases p with
  | holding => exact Nat.zero_le _
  | handed =>
    simp only [owed]
    split
    · exact le_rfl
    · exact Nat.zero_le _

/-- Whoever delivers something else owes nothing. -/
theorem owed_of_ne (h : o.payload? ≠ some d) (p : Custody) : owed d o p = 0 := by
  cases p with
  | holding => rfl
  | handed => exact if_neg h

theorem Broker.copies_of_perm (h : (b'.ready ++ b'.unacked).Perm (b.ready ++ b.unacked)) :
    b'.copies d = b.copies d := h.countP_eq _

/-- A delivery and the way back keep every copy. -/
theorem copies_accept (h : o.accept sh = some sh') : sh'.broker.copies d = sh.broker.copies d := by
  cases o with
  | http tok r => rw [(Origin.accept_http h).2]
  | delivery m =>
    obtain ⟨ready, -, rfl⟩ := Origin.accept_delivery h
    have taken := (List.perm_cons_erase ready).symm
    refine Broker.copies_of_perm ?_
    rw [← List.append_assoc]
    exact (List.perm_append_singleton _ _).trans (taken.append_right _)

theorem copies_env {e : EnvStep} (h : e.run sh = some sh') :
    sh.broker.copies d ≤ sh'.broker.copies d := by
  cases e with
  | expire k => cases h; exact le_rfl
  | tick => cases h; exact le_rfl
  | requeue m =>
    simp only [EnvStep.run] at h
    split at h
    · next back =>
      cases h
      have given := (List.perm_cons_erase back).symm
      refine (Broker.copies_of_perm ?_).ge
      rw [List.append_assoc]
      exact given.append_left _
    · cases h
  | redeliver m =>
    simp only [EnvStep.run] at h
    split at h
    · cases h
      simp only [Broker.copies, List.countP_append]
      omega
    · cases h

/-- An acknowledgement takes away one copy at most, of its own message. -/
theorem copies_ack (m : Message) :
    b.copies d ≤ ((RabbitOp.ack m).run b).copies d + if m.data = d then 1 else 0 := by
  simp only [Broker.copies, RabbitOp.run, List.countP_append, List.countP_erase]
  by_cases hm : m.data = d
  · simp only [hm, decide_true, if_true]
    split <;> omega
  · simp [hm]

theorem copies_send {q data x} {a : Bool} : b.copies d + (if data = d ∧ a = true then 1 else 0) ≤
    ((RabbitOp.sendToQueue q data x).run b).copies d := by
  simp only [Broker.copies, RabbitOp.run, List.countP_append, List.countP_singleton, decide_eq_true_eq]
  by_cases hd : data = d
  · simp only [hd, true_and, if_true]
    split <;> omega
  · simp only [hd, false_and, if_false]
    omega

/-- Declaring a queue publishes nothing; where that fails a delivery owes its copy. -/
theorem copies_assertQueue {c : Choice} {q : Queue} {r}
    (he : exec c i o (.rabbit (.assertQueue q)) sh = some (sh', r)) :
    sh.broker.copies d + owed d o (o.republished p (.rabbit (.assertQueue q)) r) ≤
      sh'.broker.copies d + owed d o p + o.unpublished d c (.rabbit (.assertQueue q)) := by
  have one := owed_le_one (d := d) (o := o) (o.republished p (.rabbit (.assertQueue q)) r)
  have hb : sh'.broker = sh.broker := by
    rcases exec_broker he with hb | ⟨op', hop, hb⟩
    · exact hb
    · cases hop
      exact hb
  rw [hb]
  cases r with
  | ok _ =>
    show _ + owed d o p ≤ _
    omega
  | error e =>
    have unanswered : c.answers = false := by
      cases c with
      | ok a => cases he
      | _ => rfl
    by_cases hd : o.payload? = some d
    · by_cases hq : o.retries q = true
      · simp only [Origin.unpublished, hd, hq, unanswered, and_self, if_true]
        omega
      · have hn : o.republished p (.rabbit (.assertQueue q)) (.error e) = p := if_neg hq
        rw [hn]
        omega
    · rw [owed_of_ne hd]
      omega

/-- A delivery that publishes its message again owes a copy, and adds one unless
it fails. -/
theorem copies_sendToQueue {c : Choice} {q : Queue} {data x r}
    (ha : o.Republishes p (.rabbit (.sendToQueue q data x)))
    (he : exec c i o (.rabbit (.sendToQueue q data x)) sh = some (sh', r)) :
    sh.broker.copies d + owed d o (o.republished p (.rabbit (.sendToQueue q data x)) r) ≤
      sh'.broker.copies d + owed d o p + o.unpublished d c (.rabbit (.sendToQueue q data x)) := by
  have one := owed_le_one (d := d) (o := o) (o.republished p (.rabbit (.sendToQueue q data x)) r)
  have grows : sh.broker.copies d + (if data = d ∧ c.acts = true then 1 else 0) ≤
      sh'.broker.copies d := by
    cases c with
    | fail =>
      cases he
      simp only [Choice.acts, Bool.false_eq_true, and_false, if_false]
      exact le_rfl
    | ok a => cases he; exact copies_send
    | failAfter a => cases he; exact copies_send
  cases x with
  | none =>
    have hn : o.republished p (.rabbit (.sendToQueue q data none)) r = p := by cases r <;> rfl
    rw [hn]
    omega
  | some n =>
    rcases ha with ⟨-, he⟩ | ⟨m, rfl, -, rfl, -⟩
    · cases he
    by_cases hd : m.data = d
    · cases hc : c.acts with
      | true =>
        rw [if_pos ⟨hd, hc⟩] at grows
        omega
      | false =>
        simp only [Origin.unpublished, hd, hc, and_self, if_true]
        omega
    · have other : (Origin.delivery m).payload? ≠ some d := fun he => hd (Option.some.inj he)
      rw [owed_of_ne other]
      omega

/-- The copy that an acknowledgement takes away was owed. -/
theorem copies_acknowledged {c : Choice} {m : Message} {r} (ha : o.Republishes p (.rabbit (.ack m)))
    (he : exec c i o (.rabbit (.ack m)) sh = some (sh', r)) :
    sh.broker.copies d + owed d o (o.republished p (.rabbit (.ack m)) r) ≤
      sh'.broker.copies d + owed d o p + o.unpublished d c (.rabbit (.ack m)) := by
  obtain ⟨rfl, rfl⟩ := ha
  have debt : owed d (.delivery m) .handed = if m.data = d then 1 else 0 := by
    simp [owed, Origin.payload?]
  have settled : owed d (.delivery m)
      ((Origin.delivery m).republished .handed (.rabbit (.ack m)) r) = 0 := by cases r <;> rfl
  have taken := copies_ack (d := d) (b := sh.broker) m
  rw [debt, settled]
  cases c with
  | fail =>
    cases he
    exact Nat.le_add_right _ _
  | ok a => cases he; exact taken
  | failAfter a => cases he; exact taken

/-- What a call takes from the copies and from the debt of its thread is a
failed publication. -/
theorem copies_call {c : Choice} {op : Op} {r} (ha : o.Republishes p op)
    (he : exec c i o op sh = some (sh', r)) :
    sh.broker.copies d + owed d o (o.republished p op r) ≤
      sh'.broker.copies d + owed d o p + o.unpublished d c op := by
  by_cases hop : ∃ op', op = .rabbit op'
  · obtain ⟨op', rfl⟩ := hop
    cases op' with
    | assertQueue q => exact copies_assertQueue he
    | sendToQueue q data x => exact copies_sendToQueue ha he
    | ack m => exact copies_acknowledged ha he
  · have hb : sh'.broker = sh.broker := by
      rcases exec_broker he with hb | ⟨op', hop', -⟩
      · exact hb
      · exact absurd ⟨op', hop'⟩ hop
    have hn : o.republished p op r = p := by
      cases op with
      | rabbit op' => exact absurd ⟨op', rfl⟩ hop
      | _ => rfl
    rw [hb, hn]
    omega

end

abbrev Debts (d : Payload) (s : State) (g : Carriers) : Nat :=
  ∑ i ∈ Finset.range s.threads.length, Machine.purse (owed d) (g i)

/-- One step: what is gone was owed or failed to be published. -/
theorem copies_step {d : Payload} {s t : State} {l : Step} {g g' : Carriers}
    (hf : Machine.Follows service .crashed republication (fun _ => .holding) s g l t g') :
    s.shared.broker.copies d + Debts d t g' ≤
      t.shared.broker.copies d + Debts d s g + unpublished d s l := by
  cases hf with
  | start ha _ =>
    have kept := copies_accept (d := d) ha
    simp only [Debts, List.length_append, List.length_singleton, Machine.purses_start, owed]
    omega
  | @run i c o op k sh r p hi hg allowed he =>
    have called := copies_call (d := d) allowed he
    have moved := Machine.purses_run (w := owed d) (List.getElem?_eq_some_iff.mp hi).1 hg
      ((republication o).next p op r)
    have lost : unpublished d s (.run i c) = o.unpublished d c op := by simp only [unpublished, hi]
    simp only [Debts, List.length_set, lost]
    simp only [republication] at moved ⊢
    omega
  | env he =>
    have kept := copies_env (d := d) he
    simp only [Debts]
    omega
  | kill _ _ =>
    simp only [Debts, List.length_set]
    exact Nat.le_add_right _ _

/-- Whatever runs and fails, a copy of a payload leaves the broker only with a
publication of it that has failed: as many may be gone as publications failed. -/
theorem copies_go_with_failed_publications (d : Payload) {s t : State} {n : Nat} (hs : s.threads = [])
    (h : service.Counts .crashed (unpublished d) (fun _ _ _ => True) s t n) :
    s.shared.broker.copies d ≤ t.shared.broker.copies d + n := by
  have first : ∃ g : Carriers, Machine.Tracks .crashed republication (fun _ _ _ => True) s.threads g ∧
      s.shared.broker.copies d + Debts d s g ≤ s.shared.broker.copies d + 0 := by
    refine ⟨_, .of_nil hs, ?_⟩
    simp [Debts, hs]
  obtain ⟨g, -, kept⟩ := Machine.Counts.invariant (I := fun u k => ∃ g : Carriers,
    Machine.Tracks .crashed republication (fun _ _ _ => True) u.threads g ∧
      s.shared.broker.copies d + Debts d u g ≤ u.shared.broker.copies d + k) first
    (fun u v l k _ hI hst => by
      obtain ⟨g, ht, kept⟩ := hI
      obtain ⟨g', ht', hf⟩ := ht.step (C := fun _ _ => True) (service_republishes _) trivial hst
      have moved := copies_step (d := d) hf
      exact ⟨g', ht', by omega⟩) h
  omega

/-- A deposit into a wallet that is not there waits for its first attempt. -/
def depositWaits : State :=
  { State.empty with shared := { State.empty.shared with
      broker := { State.empty.shared.broker with
        ready := [⟨.walletFunding, .job (.funding lostDeposit), none, 0⟩] } } }

/-- It fails, is not published again and acknowledged: the only copy is gone. -/
def failedAndLost : List Step :=
  .start (.delivery ⟨.walletFunding, .job (.funding lostDeposit), none, 0⟩) :: calls 0 6 ++
    .run 0 .fail :: calls 0 1

theorem copies_go_with_failed_publications_lost : ∃ t : State,
    depositWaits.shared.broker.copies (.job (.funding lostDeposit)) = 1 ∧
    t.shared.broker.copies (.job (.funding lostDeposit)) = 0 ∧
    depositWaits.shared.broker.copies (.job (.funding lostDeposit)) ≤
      t.shared.broker.copies (.job (.funding lostDeposit)) + 1 := by
  have h : (service.runsCount .crashed (unpublished (.job (.funding lostDeposit)))
      (fun _ _ _ => true) failedAndLost depositWaits 0).any (fun r =>
      decide (r.1.shared.broker.copies (.job (.funding lostDeposit)) = 0 ∧ r.2 = 1)) = true := by
    decide +kernel
  have first : depositWaits.shared.broker.copies (.job (.funding lostDeposit)) = 1 := by decide +kernel
  obtain ⟨r, hr, gone⟩ := (Option.any_eq_true _ _).mp h
  have gone := of_decide_eq_true gone
  have counted := Machine.counts_of_runsCount (C := fun _ _ _ => True) (fun _ _ _ _ _ => trivial)
    .refl hr
  rw [gone.2] at counted
  exact ⟨r.1, first, gone.1, copies_go_with_failed_publications _ rfl counted⟩

end Pactic
