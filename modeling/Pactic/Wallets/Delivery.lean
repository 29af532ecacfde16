import Pactic.Protocol.Calls
import Pactic.Protocol.Handover
import Pactic.Wallets.Retry

/-! # No accepted job is lost

A message leaves the queue for good only when it is acknowledged, and that
happens only after a failed attempt has been published again. The publisher
swallows its own failures: whoever it lets down still answers `queued`, or
acknowledges the only copy. While no publication of a job fails, the newest copy
of every job is in its queue or in the dead-letter queue. -/
namespace Pactic
open Resumption

/-- The call does not let the publisher of a job down: the queue is asserted and
the message is sent, whether or not the answer arrives. -/
def RabbitOp.Succeeds (c : Choice) : RabbitOp → Prop
  | assertQueue q => q.carriesJobs = true → ∃ a, c = .ok a
  | sendToQueue _ data _ => data.isJob = true → c ≠ .fail
  | ack _ => True

/-- No publication of a job by its request or its delivery fails. -/
def Published (s : State) (l : Step) : Prop := ∀ i c o op k, l = .run i c →
  s.threads[i]? = some ⟨o, .call (.rabbit op) k⟩ → o.subject?.isSome = true → op.Succeeds c

/-- Tags are given out in order. -/
def Broker.Numbered (b : Broker) : Prop := ∀ m, b.Holds m → m.tag < b.nextTag

/-- Where a message about a job may wait: in the queue of the job, or dead. -/
def Message.Placed (m : Message) : Prop :=
  ∀ j, m.data = .job j → m.queue = j.queue ∨ m.queue = .walletFundingDead

/-! ## Who still keeps a job -/

/-- Whether the thread has handed its job on, or has tried to. -/
inductive Custody where
  | holding | handed
  deriving DecidableEq

/-- Jobs are published by those they concern, and acknowledged after that. -/
def Origin.AllowsHanding (o : Origin) (p : Custody) : Op → Prop
  | .rabbit (.sendToQueue q data _) => data.isJob = true →
      ∃ j, data = .job j ∧ o.subject? = some j ∧ (q = j.queue ∨ q = .walletFundingDead)
  | .rabbit (.ack m) => o = .delivery m ∧ (m.data.isJob = true → p = .handed)
  | _ => True

def Custody.next (p : Custody) : (o : Op) → Except Err o.Res → Custody
  | .rabbit (.assertQueue q), .error _ => if q.carriesJobs then .handed else p
  | .rabbit (.sendToQueue _ data _), _ => if data.isJob then .handed else p
  | _, _ => p

def custody (o : Origin) : Monitor Op Op.Res Err Custody := ⟨o.AllowsHanding, Custody.next⟩

/-- A request that answers `queued` has handed its own job on, or has tried to. -/
def Promises (o : Origin) (r : Except Err Reply) (p : Custody) : Prop :=
  ∀ text j, r = .ok (.queued text j) → o.subject? = some j ∧ p = .handed

section
variable {o : Origin} {p : Custody} {j : Job} {α : Type}

theorem Promises.error {e : Err} : Promises o (.error e) p := fun _ _ h => by cases h

theorem handsOn_still {op : Op} (h : op.handsOn = false) :
    (custody o).allow p op ∧ ∀ r, (custody o).next p op r = p := by
  cases op with
  | rabbit op =>
    cases op with
    | ack m => cases h
    | assertQueue q =>
      have hq : q.carriesJobs = false := h
      refine ⟨trivial, fun r => ?_⟩
      cases r with
      | ok _ => rfl
      | error _ => simp [custody, Custody.next, hq]
    | sendToQueue q data x =>
      have hd : data.isJob = false := h
      refine ⟨fun hj => ?_, fun r => ?_⟩
      · rw [hd] at hj; cases hj
      · simp [custody, Custody.next, hd]
  | _ => exact ⟨trivial, fun _ => rfl⟩

/-- A program that hands nothing on leaves the custody as it is. -/
theorem keeps_custody {c : Proc α} (h : c.Only fun op => op.handsOn = false) :
    (custody o).wp c (fun _ q => q = p) p :=
  Monitor.wp_of_only _ (fun _ => handsOn_still) h

/-- After a publication, failed or not, a job is handed on. -/
theorem publish_custody {q data x} {Q : Except Err Unit → Custody → Prop}
    (ha : data.isJob = true →
      ∃ j, data = .job j ∧ o.subject? = some j ∧ (q = j.queue ∨ q = .walletFundingDead))
    (hQ : ∀ p', (data.isJob = true → p' = .handed) → Q (.ok ()) p') :
    (custody o).wp (sendToQueue q data x) Q p := by
  have hq : data.isJob = true → q.carriesJobs = true := by
    intro hd
    obtain ⟨j, -, -, rfl | rfl⟩ := ha hd
    · exact j.queue_carriesJobs
    · rfl
  refine (Monitor.wp_tryCatch _ _ _ _ _).mpr ((Monitor.wp_bind _ _ _ _ _).mpr ⟨trivial, ?_⟩)
  refine forall_except_unit.mpr ⟨⟨ha, forall_except_unit.mpr ⟨?_, fun _ => ?_⟩⟩, fun _ => ?_⟩
  · exact hQ _ fun hd => if_pos hd
  · exact hQ _ fun hd => if_pos hd
  · exact hQ _ fun hd => if_pos (hq hd)

/-- The callback acknowledges a job after it has published it again. -/
theorem consume_custody {m : Message} {handler : Proc Unit} (hh : HandlerCalls handler)
    (hm : ∀ j, m.data = .job j → m.queue = j.queue) :
    (custody (.delivery m)).wp (consume m.queue handler m) (fun _ _ => True) .holding := by
  have retry {q} (hplace : ∀ j, m.data = .job j → q = j.queue ∨ q = .walletFundingDead) :
      (custody (.delivery m)).wp (do
        sendToQueue q m.data (some (m.attempts + 1))
        call (.rabbit (.ack m))) (fun _ _ => True) .holding := by
    refine (Monitor.wp_bind _ _ _ _ _).mpr (publish_custody (fun hd => ?_) fun p' hp' => ?_)
    · obtain ⟨j, hj⟩ := Payload.isJob_iff.mp hd
      exact ⟨j, hj, Origin.job?_delivery.mpr hj, hplace j hj⟩
    · exact ⟨⟨rfl, hp'⟩, fun _ => trivial⟩
  refine (Monitor.wp_tryCatch _ _ _ _ _).mpr (Monitor.wp_mono _
    (keeps_custody (hh.mono fun _ => Op.handsOn_of_ofHandler)) fun r p hp => ?_)
  subst hp
  cases r with
  | ok _ => trivial
  | error e =>
    dsimp only
    split
    · exact retry fun j _ => .inr rfl
    · exact retry fun j hj => .inl (hm j hj)

/-- Publishing the job asked for and answering `queued`. -/
theorem enqueue_custody (text : String) (hs : o.subject? = some j) :
    (custody o).wp (do
      sendToQueue j.queue (.job j) none
      pure (Reply.queued text j)) (Promises o) p := by
  refine (Monitor.wp_bind _ _ _ _ _).mpr (publish_custody (fun _ => ⟨j, rfl, hs, .inl rfl⟩) ?_)
  intro p' hp' text' j' he
  cases he
  exact ⟨hs, hp' rfl⟩

theorem fundWallet_custody {b : FundWalletDto} (hs : o.subject? = some (.funding b)) :
    (custody o).wp (WalletsService.fundWallet b) (Promises o) p := by
  refine (Monitor.wp_perform_bind _ _ _ _ _).mpr ⟨trivial, fun cached => ?_, fun _ => .error⟩
  cases cached with
  | some _ => intro _ _ he; cases he
  | none =>
    refine (Monitor.wp_perform_bind _ _ _ _ _).mpr ⟨trivial, fun existing => ?_, fun _ => .error⟩
    cases existing with
    | none => exact enqueue_custody _ hs
    | some _ =>
      refine (Monitor.wp_perform_bind _ _ _ _ _).mpr ⟨trivial, fun _ => ?_, fun _ => .error⟩
      intro _ _ he; cases he

theorem enqueueUnlessUsed_custody {conflict queued} (hs : o.subject? = some j) :
    (custody o).wp (WalletsService.enqueueUnlessUsed conflict queued j) (Promises o) p := by
  refine (Monitor.wp_perform_bind _ _ _ _ _).mpr ⟨trivial, fun cached => ?_, fun _ => .error⟩
  split
  · exact .error
  refine (Monitor.wp_perform_bind _ _ _ _ _).mpr ⟨trivial, fun existing => ?_, fun _ => .error⟩
  cases existing with
  | none => exact enqueue_custody _ hs
  | some _ =>
    exact (Monitor.wp_perform_bind _ _ _ _ _).mpr ⟨trivial, fun _ => .error, fun _ => .error⟩

/-- An endpoint that hands nothing on and answers something else. -/
theorem answer_custody {c : Proc α} {f : α → Reply} (h : c.Only fun op => op.handsOn = false)
    (hf : ∀ a text j, f a ≠ .queued text j) :
    (custody o).wp (do let a ← c; pure (f a)) (Promises o) p :=
  wp_answer (keeps_custody h) (fun a _ _ text j he => absurd (Except.ok.inj he) (hf a text j))
    fun _ _ _ => .error

theorem announce_keeps {q data x} (hd : data.isJob = false) (hq : q.carriesJobs = false) :
    (sendToQueue q data x).Only fun op => op.handsOn = false :=
  .tryCatch (.bind (.perform hq) fun _ => .perform hd) fun _ => trivial

theorem createWallet_keeps_custody (u cur t) :
    (WalletsService.createWallet u cur t).Only fun op => op.handsOn = false := by
  refine .bind (.perform rfl) fun cached => ?_
  split
  · trivial
  refine .bind (.perform rfl) fun existing => ?_
  unfold WalletsService.createUnlessRecorded
  split
  · exact .bind (.perform rfl) fun _ => trivial
  refine .bind (.perform rfl) fun found => ?_
  cases found with
  | some _ => trivial
  | none =>
    refine .bind (.perform rfl) fun w => .bind (.perform rfl) fun r => .bind (.perform rfl) fun _ =>
      .bind (announce_keeps rfl rfl) fun _ => .bind (.bind (.perform rfl) fun cached => ?_) fun _ => trivial
    cases cached with
    | none => trivial
    | some _ => exact .perform rfl

theorem create_keeps_custody (b : CreateUserDto) :
    (UsersService.create b).Only fun op => op.handsOn = false := by
  refine .bind (.perform rfl) fun found => ?_
  split
  · trivial
  · exact .bind (.perform rfl) fun _ => .bind (.perform rfl) fun _ => trivial

theorem updateProfile_keeps_custody (client : Client) (u : Int) (dto : JsonObject) :
    (UsersService.updateProfile client u dto).Only fun op => op.handsOn = false :=
  .bind (.perform rfl) fun _ => .bind (.perform rfl) fun _ => .bind (.perform rfl) fun _ => trivial

theorem deleteUser_custody (u : Int) :
    (custody o).wp (UsersService.deleteUser u) (Promises o) p := by
  refine (Monitor.wp_perform_bind _ _ _ _ _).mpr ⟨trivial, fun found => ?_, fun _ => .error⟩
  cases found with
  | none => exact .error
  | some user =>
    dsimp only
    split
    · exact .error
    · refine (Monitor.wp_perform_bind _ _ _ _ _).mpr ⟨trivial, fun now => ?_, fun _ => .error⟩
      refine (Monitor.wp_perform_bind _ _ _ _ _).mpr ⟨trivial, fun deleted => ?_, fun _ => .error⟩
      refine (Monitor.wp_perform_bind _ _ _ _ _).mpr ⟨trivial, fun _ => ?_, fun _ => .error⟩
      intro _ _ he; cases he

/-- A request publishes its own job only, and answers `queued` only after that. -/
theorem Request.program_custody (tok : Int) (r : Request) :
    (custody (.http tok r)).wp (r.program tok) (Promises (.http tok r)) .holding := by
  have reads {α : Type} {c : Proc α} (h : c.Only fun op => op.reads = true) :
      c.Only fun op => op.handsOn = false := h.mono fun _ => Op.handsOn_of_reads
  have checked {u : Int} {c : Proc Reply} {r : Request}
      (h : (custody (.http tok r)).wp c (Promises (.http tok r)) .holding) :
      (custody (.http tok r)).wp (do validateTokenUser u tok; c) (Promises (.http tok r)) .holding :=
    wp_validateTokenUser (fun _ => .error) fun _ => h
  cases r with
  | createWallet b =>
    exact checked (answer_custody (createWallet_keeps_custody _ _ _) (by simp))
  | fundWallet b => exact checked (fundWallet_custody rfl)
  | getUserWallets u =>
    exact checked (answer_custody (reads (getUserWallets_reads u)) (by simp))
  | withdrawFromWallet b => exact checked (enqueueUnlessUsed_custody rfl)
  | transferFunds b => exact checked (enqueueUnlessUsed_custody rfl)
  | signup b => exact answer_custody (create_keeps_custody b) (by simp)
  | login b ip ua => exact answer_custody (reads (login_reads b ip ua)) (by simp)
  | getProfile u =>
    exact checked (answer_custody (reads (getProfile_reads u)) (by simp))
  | updateProfile body client =>
    simp only [program, UsersController.updateProfile]
    split
    · exact .error
    · exact checked
        (answer_custody (updateProfile_keeps_custody client _ _) (by simp))
  | deleteUser u => exact checked (deleteUser_custody u)

/-- Every thread keeps its job until it has handed it on. -/
theorem service_custody (C : State → Step → Prop) :
    Machine.Obeys service custody Promises (fun _ => .holding) C := by
  intro s o sh _ ha
  cases o with
  | http tok r => exact Request.program_custody tok r
  | delivery m =>
    obtain ⟨c, hc, program⟩ := Origin.program_delivery (Origin.accept_delivery ha).2.1
    obtain ⟨handler, rfl, hh, hq⟩ := deliver_eq_consume hc
    show (custody _).wp (Origin.delivery m).program _ _
    rw [program]
    refine (Monitor.wp_bind _ _ _ _ _).mpr
      (Monitor.wp_mono _ (consume_custody hh fun j hj => (hq j hj).1) fun r p _ => ?_)
    cases r with
    | ok _ => intro _ _ he; cases he
    | error _ => exact .error

end

/-! ## The newest copy of a job -/

abbrev Carriers := Machine.Ghost Origin Custody

/-- From tag `n` on, the newest copy of every job is in a queue, and whoever has
handed a job on has left a newer copy of it. -/
structure Kept (n : Nat) (sh : Shared) (g : Carriers) : Prop where
  numbered : sh.broker.Numbered
  started : n ≤ sh.broker.nextTag
  delivered : ∀ i m p, g i = some (.delivery m, p) → m.tag < sh.broker.nextTag
  placed : ∀ m, sh.broker.Holds m → n ≤ m.tag → m.Placed
  handed : ∀ i o j, g i = some (o, .handed) → o.subject? = some j →
    ∃ m ∈ sh.broker.sent, n ≤ m.tag ∧ m.data = .job j ∧ ∀ m₀, o = .delivery m₀ → m₀.tag < m.tag
  latest : ∀ m ∈ sh.broker.sent, n ≤ m.tag → m.data.isJob = true →
    ∃ m', (m' ∈ sh.broker.ready ∨ m' ∈ sh.broker.unacked) ∧ m'.data = m.data ∧ m.tag ≤ m'.tag

section
variable {n : Nat} {sh sh' : Shared} {g : Carriers} {i : Nat} {o : Origin} {p p' : Custody}

/-- A move of the queues that loses and publishes nothing. -/
theorem Kept.weaken (h : Kept n sh g) (hs : sh'.broker.sent = sh.broker.sent)
    (ht : sh'.broker.nextTag = sh.broker.nextTag)
    (hh : ∀ m, sh'.broker.Holds m → sh.broker.Holds m)
    (hr : ∀ m, m ∈ sh.broker.ready ∨ m ∈ sh.broker.unacked →
      m ∈ sh'.broker.ready ∨ m ∈ sh'.broker.unacked) : Kept n sh' g where
  numbered m hm := ht ▸ h.numbered m (hh m hm)
  started := ht ▸ h.started
  delivered i m p hg := ht ▸ h.delivered i m p hg
  placed m hm := h.placed m (hh m hm)
  handed i o j hg hj := hs ▸ h.handed i o j hg hj
  latest m hm hn hd := by
    obtain ⟨m', hm', rest⟩ := h.latest m (hs ▸ hm) hn hd
    exact ⟨m', hr m' hm', rest⟩

/-- A thread moves on and has handed on nothing that it had not before. -/
theorem Kept.update (h : Kept n sh g) (hd : ∀ m, o = .delivery m → m.tag < sh.broker.nextTag)
    (hp : ∀ j, p' = .handed → o.subject? = some j → ∃ m ∈ sh.broker.sent, n ≤ m.tag ∧
      m.data = .job j ∧ ∀ m₀, o = .delivery m₀ → m₀.tag < m.tag) :
    Kept n sh (Function.update g i (some (o, p'))) where
  numbered := h.numbered
  started := h.started
  placed := h.placed
  latest := h.latest
  delivered k m q hg := by
    by_cases hk : k = i
    · subst hk
      rw [Function.update_self] at hg
      cases hg
      exact hd m rfl
    · rw [Function.update_of_ne hk] at hg
      exact h.delivered k m q hg
  handed k o' j hg hj := by
    by_cases hk : k = i
    · subst hk
      rw [Function.update_self] at hg
      cases hg
      exact hp j rfl hj
    · rw [Function.update_of_ne hk] at hg
      exact h.handed k o' j hg hj

theorem Kept.stay (h : Kept n sh g) (hg : g i = some (o, p)) :
    Kept n sh (Function.update g i (some (o, p))) := by
  rw [← hg, Function.update_eq_self]
  exact h

/-- A publication adds the newest message there is. -/
theorem Kept.publish {q data x} (h : Kept n sh g) (hg : g i = some (o, p))
    (ha : (custody o).allow p (.rabbit (.sendToQueue q data x))) :
    Kept n { sh with broker := (RabbitOp.sendToQueue q data x).run sh.broker }
      (Function.update g i (some (o, if data.isJob then .handed else p))) := by
  have holds {m} (hm : ((RabbitOp.sendToQueue q data x).run sh.broker).Holds m) :
      sh.broker.Holds m ∨ m = ⟨q, data, x, sh.broker.nextTag⟩ := by
    rcases RabbitOp.run_holds hm with hm | ⟨_, _, _, he, rfl⟩
    · exact .inl hm
    · cases he; exact .inr rfl
  have base : Kept n { sh with broker := (RabbitOp.sendToQueue q data x).run sh.broker } g := by
    refine ⟨fun m hm => ?_, h.started.trans (Nat.le_succ _), fun k m q hk =>
      (h.delivered k m q hk).trans (Nat.lt_succ_self _), fun m hm hn => ?_, fun k o' j hk hj => ?_,
      fun m hm hn hd => ?_⟩
    · rcases holds hm with hm | rfl
      · exact (h.numbered m hm).trans (Nat.lt_succ_self _)
      · exact Nat.lt_succ_self _
    · rcases holds hm with hm | rfl
      · exact h.placed m hm hn
      · intro j hj
        obtain ⟨j', hj', -, hq⟩ := ha (Payload.isJob_iff.mpr ⟨j, hj⟩)
        rw [hj'] at hj
        cases hj
        exact hq
    · obtain ⟨m, hm, rest⟩ := h.handed k o' j hk hj
      exact ⟨m, List.mem_append_left _ hm, rest⟩
    · rcases List.mem_append.mp hm with hm | hm
      · obtain ⟨m', hm', rest⟩ := h.latest m hm hn hd
        exact ⟨m', hm'.imp_left (List.mem_append_left _), rest⟩
      · exact ⟨m, .inl (List.mem_append_right _ hm), rfl, le_rfl⟩
  refine base.update (fun m ho => base.delivered i m p (ho ▸ hg)) fun j hp hj => ?_
  split at hp
  · next hd =>
    obtain ⟨j', hj', hs, -⟩ := ha hd
    rw [hj] at hs
    cases hs
    exact ⟨_, List.mem_append_right _ (.head _), h.started, hj', fun m₀ ho =>
      h.delivered i m₀ p (ho ▸ hg)⟩
  · subst hp
    exact base.handed i o j hg hj

/-- An acknowledgement takes away a copy that is not the newest. -/
theorem Kept.ack {m₀ : Message} (h : Kept n sh g) (hg : g i = some (.delivery m₀, p))
    (hp : m₀.data.isJob = true → p = .handed) :
    Kept n { sh with broker := (RabbitOp.ack m₀).run sh.broker } g := by
  have holds {m} (hm : ((RabbitOp.ack m₀).run sh.broker).Holds m) : sh.broker.Holds m := by
    rcases RabbitOp.run_holds hm with hm | ⟨_, _, _, he, -⟩
    · exact hm
    · cases he
  refine ⟨fun m hm => h.numbered m (holds hm), h.started, h.delivered,
    fun m hm => h.placed m (holds hm), h.handed, fun m hm hn hd => ?_⟩
  have stays {m'} (hne : m' ≠ m₀) (hm' : m' ∈ sh.broker.ready ∨ m' ∈ sh.broker.unacked) :
      m' ∈ sh.broker.ready ∨ m' ∈ sh.broker.unacked.erase m₀ :=
    hm'.imp_right (List.mem_erase_of_ne hne).mpr
  obtain ⟨m', hm', hdata, htag⟩ := h.latest m hm hn hd
  by_cases he : m' = m₀
  · -- the acknowledged copy has a newer one
    subst he
    obtain ⟨j, hj⟩ := Payload.isJob_iff.mp hd
    have hj' : m'.data = .job j := hdata.trans hj
    have handed : g i = some (.delivery m', .handed) := by rw [hg, hp (by rw [hdata]; exact hd)]
    obtain ⟨m₁, hm₁, hn₁, hd₁, hlt⟩ := h.handed i _ j handed (Origin.job?_delivery.mpr hj')
    obtain ⟨m₂, hm₂, hd₂, hle⟩ := h.latest m₁ hm₁ hn₁ (Payload.isJob_iff.mpr ⟨j, hd₁⟩)
    have hlt' := hlt m' rfl
    refine ⟨m₂, stays ?_ hm₂, ?_, by omega⟩
    · rintro rfl; omega
    · rw [hd₂, hd₁, hj]
  · exact ⟨m', stays he hm', hdata, htag⟩

theorem Kept.call {c : Choice} {op : Op} {r} (h : Kept n sh g) (hg : g i = some (o, p))
    (ha : (custody o).allow p op) (he : exec c i o op sh = some (sh', r))
    (published : ∀ op', op = .rabbit op' → o.subject?.isSome = true → op'.Succeeds c) :
    Kept n sh' (Function.update g i (some (o, (custody o).next p op r))) := by
  have same (hb : sh'.broker = sh.broker) : Kept n sh' g :=
    h.weaken (by rw [hb]) (by rw [hb]) (fun m => by rw [hb]; exact id) fun m => by rw [hb]; exact id
  by_cases hop : ∃ op', op = .rabbit op'
  · obtain ⟨op', rfl⟩ := hop
    cases op' with
    | assertQueue q =>
      have hb : sh'.broker = sh.broker := by
        rcases exec_broker he with hb | ⟨op', hop, hb⟩
        · exact hb
        · cases hop; exact hb
      refine (same hb).update (fun m ho => (same hb).delivered i m p (ho ▸ hg)) fun j hp hj => ?_
      have hn : (custody o).next p (.rabbit (.assertQueue q)) r = p := by
        cases r with
        | ok _ => rfl
        | error e =>
          simp only [custody, Custody.next]
          split
          · next hq =>
            obtain ⟨a, rfl⟩ := published _ rfl (by rw [hj]; rfl) hq
            cases he
          · rfl
      rw [hn] at hp
      subst hp
      exact (same hb).handed i o j hg hj
    | sendToQueue q data x =>
      have hn : (custody o).next p (.rabbit (.sendToQueue q data x)) r =
          if data.isJob then .handed else p := by cases r <;> rfl
      rw [hn]
      cases c with
      | fail =>
        cases he
        rw [if_neg fun hd => ?_]
        · exact h.stay hg
        · obtain ⟨j, -, hs, -⟩ := ha hd
          exact published _ rfl (by rw [hs]; rfl) hd rfl
      | ok a => cases he; exact h.publish hg ha
      | failAfter a => cases he; exact h.publish hg ha
    | ack m₀ =>
      obtain ⟨rfl, hp⟩ := ha
      have acked := (h.ack hg hp).stay hg
      cases c with
      | fail => cases he; exact h.stay hg
      | ok a => cases he; exact acked
      | failAfter a => cases he; exact acked
  · have hb : sh'.broker = sh.broker := by
      rcases exec_broker he with hb | ⟨op', hop', -⟩
      · exact hb
      · exact absurd ⟨op', hop'⟩ hop
    have hn : (custody o).next p op r = p := by
      cases op with
      | rabbit op' => exact absurd ⟨op', rfl⟩ hop
      | _ => rfl
    rw [hn]
    exact (same hb).stay hg

theorem Kept.start (h : Kept n sh g) (ha : o.accept sh = some sh') :
    Kept n sh' (Function.update g i (some (o, .holding))) := by
  cases o with
  | http tok r =>
    obtain ⟨-, rfl⟩ := Origin.accept_http ha
    exact h.update (fun m ho => by cases ho) fun j hp => by cases hp
  | delivery m =>
    obtain ⟨ready, -, rfl⟩ := Origin.accept_delivery ha
    have moved : Kept n { sh with broker := { sh.broker with
        ready := sh.broker.ready.erase m, unacked := sh.broker.unacked ++ [m] } } g := by
      refine h.weaken rfl rfl (fun m' hm' => ?_) fun m' hm' => ?_
      · rcases hm' with hm' | hm' | hm'
        · exact .inl (List.mem_of_mem_erase hm')
        · rcases List.mem_append.mp hm' with hm' | hm'
          · exact .inr (.inl hm')
          · exact .inl (List.mem_singleton.mp hm' ▸ ready)
        · exact .inr (.inr hm')
      · rcases hm' with hm' | hm'
        · by_cases he : m' = m
          · exact .inr (List.mem_append_right _ (List.mem_singleton.mpr he))
          · exact .inl ((List.mem_erase_of_ne he).mpr hm')
        · exact .inr (List.mem_append_left _ hm')
    refine moved.update (fun m' ho => ?_) fun j hp => by cases hp
    cases ho
    exact h.numbered m (.inl ready)

/-- Redelivered or given back, a message is still there. -/
theorem Kept.env {e : EnvStep} (h : Kept n sh g) (he : e.run sh = some sh') : Kept n sh' g := by
  cases e with
  | expire k => cases he; exact h.weaken rfl rfl (fun _ => id) fun _ => id
  | tick => cases he; exact h.weaken rfl rfl (fun _ => id) fun _ => id
  | requeue m =>
    have holds := EnvStep.run_holds he
    simp only [EnvStep.run] at he
    split at he
    · cases he
      refine h.weaken rfl rfl holds fun m' hm' => ?_
      rcases hm' with hm' | hm'
      · exact .inl (List.mem_append_left _ hm')
      · by_cases hne : m' = m
        · exact .inl (List.mem_append_right _ (List.mem_singleton.mpr hne))
        · exact .inr ((List.mem_erase_of_ne hne).mpr hm')
    · cases he
  | redeliver m =>
    have holds := EnvStep.run_holds he
    simp only [EnvStep.run] at he
    split at he
    · cases he
      exact h.weaken rfl rfl holds fun m' hm' => hm'.imp_left (List.mem_append_left _)
    · cases he

end

theorem kept_stable (n : Nat) (K : Shared → Carriers → Prop) :
    Machine.Stable service custody (fun _ => .holding) Published K (Kept n) where
  start _ _ _ _ _ _ _ _ h _ ha := h.start ha
  run s i o op k c sh r g p hc ht _ h hg ha he := by
    refine h.call hg ha he fun op' hop => ?_
    subst hop
    exact hc i c o op' k rfl ht
  env _ _ _ _ _ _ h he := h.env he
  kill _ _ _ _ _ h := h.weaken rfl rfl (fun _ => id) fun _ => id

theorem Kept.first {s : State} (hb : s.shared.broker.Numbered) :
    Kept s.shared.broker.nextTag s.shared fun _ => none where
  numbered := hb
  started := le_rfl
  delivered _ _ _ hg := by cases hg
  placed m hm hn := absurd (hb m hm) (Nat.not_lt.mpr hn)
  handed _ _ _ hg := by cases hg
  latest m hm hn := absurd (hb m (.inr (.inr hm))) (Nat.not_lt.mpr hn)

/-- A job whose request has answered `queued` waits in its queue, is being
delivered or is a dead letter, as long as no publication of a job fails; and a
delivery of a job is acknowledged only after a newer copy was published. -/
theorem accepted_jobs_are_kept {s t : State} (hs : s.threads = [])
    (hb : s.shared.broker.Numbered) (h : Reach Published s t) :
    (∀ th ∈ t.threads, ∀ text j, th.prog = .ret (.ok (.queued text j)) →
      ∃ m, (m ∈ t.shared.broker.ready ∨ m ∈ t.shared.broker.unacked) ∧ m.data = .job j ∧
        (m.queue = j.queue ∨ m.queue = .walletFundingDead)) ∧
    ∀ th ∈ t.threads, ∀ m k, th.prog = .call (.rabbit (.ack m)) k → m.data.isJob = true →
      th.origin = .delivery m ∧
      ∃ m' ∈ t.shared.broker.sent, m'.data = m.data ∧ m.tag < m'.tag ∧ m'.Placed := by
  obtain ⟨g, ht, kept⟩ := (kept_stable s.shared.broker.nextTag _).invariant
    (service_custody Published) (.of_nil hs) (.first hb) h
  constructor
  · intro th hth text j hp
    obtain ⟨i, hi⟩ := List.mem_iff_getElem?.mp hth
    obtain ⟨p, hg, hw | hw⟩ := ht.obeys i th hi
    · rw [hp] at hw
      obtain ⟨hs, rfl⟩ := hw text j rfl
      obtain ⟨m, hm, hn, hd, -⟩ := kept.handed i _ j hg hs
      obtain ⟨m', hm', hd', hle⟩ := kept.latest m hm hn (Payload.isJob_iff.mpr ⟨j, hd⟩)
      have hj : m'.data = .job j := hd'.trans hd
      refine ⟨m', hm', hj, kept.placed m' ?_ (hn.trans hle) j hj⟩
      exact hm'.imp_right .inl
    · rw [hp] at hw; cases hw
  · intro th hth m k hp hd
    obtain ⟨i, hi⟩ := List.mem_iff_getElem?.mp hth
    obtain ⟨o, prog⟩ := th
    cases hp
    obtain ⟨p, hg, ⟨rfl, handed⟩, -⟩ := ht.called hi
    obtain ⟨j, hj⟩ := Payload.isJob_iff.mp hd
    rw [handed hd] at hg
    obtain ⟨m', hm', hn, hd', hlt⟩ := kept.handed i _ j hg (Origin.job?_delivery.mpr hj)
    exact ⟨rfl, m', hm', hd'.trans hj.symm, hlt m rfl, kept.placed m' (.inr (.inr hm')) hn⟩

/-- The call of the broker that a thread is about to make succeeds. -/
def brokerUp (s : State) : Step → Bool
  | .run i c => s.threads[i]?.all fun th => match th.prog with
    | .call (.rabbit _) _ => match c with
      | .ok _ => true
      | _ => false
    | _ => true
  | _ => true

theorem published_of_brokerUp {s : State} {l : Step} (h : brokerUp s l = true) : Published s l := by
  intro i c o op k hl hi _
  subst hl
  simp only [brokerUp, hi, Option.all_some] at h
  cases c with
  | ok a => cases op with
    | assertQueue q => exact fun _ => ⟨a, rfl⟩
    | sendToQueue q data x => exact fun _ hc => by cases hc
    | ack m => trivial
  | _ => cases h

/-- The job a finished request has answered `queued` for. -/
def ServiceThread.queued? (th : ServiceThread) : Option Job :=
  match th.prog with
  | .ret (.ok (.queued _ j)) => some j
  | _ => none

/-- The message a thread is about to acknowledge. -/
def ServiceThread.acks? (th : ServiceThread) : Option Message :=
  match th.prog with
  | .call (.rabbit (.ack m)) _ => some m
  | _ => none

theorem ServiceThread.queued?_eq_some {th : ServiceThread} {j : Job}
    (h : th.queued? = some j) : ∃ text, th.prog = .ret (.ok (.queued text j)) := by
  unfold queued? at h
  split at h
  · next text j' hp => cases h; exact ⟨text, hp⟩
  · cases h

theorem ServiceThread.acks?_eq_some {th : ServiceThread} {m : Message}
    (h : th.acks? = some m) : ∃ k, th.prog = .call (.rabbit (.ack m)) k := by
  unfold acks? at h
  split at h
  · next m' k hp => cases h; exact ⟨k, hp⟩
  · cases h

/-- A deposit that is accepted, fails for lack of a wallet and is published again. -/
def acceptedAndRetried : List Step :=
  .start (.http 1 (.fundWallet lostDeposit)) :: calls 0 4 ++
  .start (.delivery ⟨.walletFunding, .job (.funding lostDeposit), none, 0⟩) :: calls 1 7

theorem State.empty_numbered : State.empty.shared.broker.Numbered := by
  rintro m (h | h | h) <;> cases h

theorem accepted_jobs_are_kept_retried : ∃ t, Reach Published State.empty t ∧
    (∃ m, (m ∈ t.shared.broker.ready ∨ m ∈ t.shared.broker.unacked) ∧
      m.data = .job (.funding lostDeposit)) ∧
    ∃ m ∈ t.shared.broker.sent, ∃ m' ∈ t.shared.broker.sent, m'.data = m.data ∧ m.tag < m'.tag := by
  have h : (service.runsIf .crashed brokerUp acceptedAndRetried State.empty).any (fun t =>
      (t.threads.any fun th => ServiceThread.queued? th = some (.funding lostDeposit)) ∧
      t.threads.any fun th => (ServiceThread.acks? th).any fun m => m.data.isJob && m ∈ t.shared.broker.sent) =
      true := by decide +kernel
  obtain ⟨t, ht, hp⟩ := Option.any_eq_true _ _ |>.mp h
  obtain ⟨hqueued, hack⟩ := of_decide_eq_true hp
  have reach := Machine.reach_of_runsIf (fun _ _ => published_of_brokerUp) ht
  obtain ⟨kept, acked⟩ := accepted_jobs_are_kept rfl State.empty_numbered reach
  refine ⟨t, reach, ?_, ?_⟩
  · obtain ⟨th, hth, hp⟩ := List.any_eq_true.mp hqueued
    obtain ⟨text, hprog⟩ := ServiceThread.queued?_eq_some (of_decide_eq_true hp)
    obtain ⟨m, hm, hd, -⟩ := kept th hth text _ hprog
    exact ⟨m, hm, hd⟩
  · obtain ⟨th, hth, hp⟩ := List.any_eq_true.mp hack
    obtain ⟨m, hacks, hp⟩ := Option.any_eq_true _ _ |>.mp hp
    obtain ⟨hd, hm⟩ := (Bool.and_eq_true _ _).mp hp
    obtain ⟨k, hprog⟩ := ServiceThread.acks?_eq_some hacks
    obtain ⟨-, m', hm', hd', hlt, -⟩ := acked th hth m k hprog hd
    exact ⟨m, of_decide_eq_true hm, m', hm', hd', hlt⟩

/-- The broker does not take the message, and the request answers `queued`: the
deposit is nowhere, and nobody has handled it. -/
theorem accepted_deposit_is_lost : ∃ t, Reach WalletRun State.empty t ∧
    (∃ th ∈ t.threads, ∃ text, th.prog = .ret (.ok (.queued text (.funding lostDeposit)))) ∧
    (∀ m, t.shared.broker.Holds m → m.data ≠ .job (.funding lostDeposit)) ∧
    ∀ th ∈ t.threads, th.origin.job? = none := by
  have h : ((runSteps (.start (.http 1 (.fundWallet lostDeposit)) :: calls 0 3 ++ [.run 0 .fail])
      State.empty).any fun t =>
      (t.threads.any fun th => ServiceThread.queued? th = some (.funding lostDeposit)) ∧
      (t.shared.broker.ready = [] ∧ t.shared.broker.unacked = [] ∧ t.shared.broker.sent = []) ∧
      t.threads.all fun th => th.origin.job? = none) = true := by decide +kernel
  obtain ⟨t, ht, hp⟩ := runSteps_any h
  obtain ⟨hqueued, ⟨hready, hunacked, hsent⟩, hjobs⟩ := of_decide_eq_true hp
  refine ⟨t, reach_of_runSteps rfl ht, ?_, ?_, by simpa using hjobs⟩
  · obtain ⟨th, hth, hp⟩ := List.any_eq_true.mp hqueued
    exact ⟨th, hth, ServiceThread.queued?_eq_some (of_decide_eq_true hp)⟩
  · rintro m (hm | hm | hm)
    · rw [hready] at hm; cases hm
    · rw [hunacked] at hm; cases hm
    · rw [hsent] at hm; cases hm

end Pactic
