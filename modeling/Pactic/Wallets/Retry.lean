import Pactic.Protocol.Handover

/-! # Retries

A failed attempt is published again, but what it left behind, the request row
or a cached status, turns the next attempt away. A job that is never turned away
before it is committed ends committed or dead-lettered. One that is turned away
is gone. -/
namespace Pactic
open Keyed Resumption

/-- The txId a request carries. -/
def Request.txId? : Request → Option String
  | createWallet b => some b.txId
  | r => r.job?.map Job.txId

/-- No second request uses the txId, and the broker neither repeats a message
about it nor fails a delivery of it. -/
def Alone (txId : String) (s : State) (l : Step) : Prop :=
  WalletRun s l ∧ match l with
  | .start (.http _ r) => r.txId? = some txId → ∀ tok r', s.Sent tok r' → r'.txId? ≠ some txId
  | .start (.delivery _) => True
  | .run i c => ∀ m op k, s.threads[i]? = some ⟨.delivery m, .call (.rabbit op) k⟩ →
      m.data.concerns txId = true → ∃ a, c = .ok a
  | .env (.requeue m) => m.data.concerns txId = false
  | .env (.redeliver m) => m.data.concerns txId = false
  | .env _ => True
  | .kill _ => True

/-- No attempt is turned away before the job is committed. -/
def Retries (txId : String) (s : State) (l : Step) : Prop :=
  ∀ i a m op k, l = .run i (.ok a) → s.threads[i]? = some ⟨.delivery m, .call op k⟩ →
    m.data.concerns txId = true → s.shared.TurnsAway txId op → txId ∈ s.shared.committedIds

/-- The thread has returned or thrown; a killed one has done neither. -/
def ServiceThread.ended (th : ServiceThread) : Bool :=
  match th.prog with
  | .ret r => r ≠ .error .crashed
  | .call _ _ => false

/-- Every message about the txId was delivered, unless it is a dead letter, and
every delivery has ended. -/
structure State.Done (s : State) (txId : String) : Prop where
  delivered : ∀ m ∈ s.shared.broker.ready, m.data.concerns txId = true →
    m.queue = .walletFundingDead
  finished : ∀ th ∈ s.threads, ∀ m, th.origin = .delivery m → m.data.concerns txId = true →
    ServiceThread.ended th = true

/-! ## A job that is not turned away -/

/-- A published job is committed, waits in a queue, or has a busy delivery. -/
def Pursued (j : Job) (sh : Shared) (g : Threads) : Prop :=
  (∃ m ∈ sh.broker.sent, m.data = .job j) → j.txId ∈ sh.committedIds ∨
    (∃ m ∈ sh.broker.ready, m.data = .job j) ∨
    ∃ i m p, g i = some (.delivery m, p) ∧ m.data = .job j ∧ p.stage.busy = true

section
variable {sh sh' : Shared} {g : Threads} {i : Nat} {o : Origin} {p p' : Local} {j : Job}
  {txId : String}

/-- The queues only grow and the threads stay as they are. -/
theorem Pursued.weaken (h : Pursued j sh g) (hs : sh'.broker.sent = sh.broker.sent)
    (hr : ∀ m ∈ sh.broker.ready, m ∈ sh'.broker.ready) (hc : sh'.committedIds = sh.committedIds) :
    Pursued j sh' g := by
  intro hm
  rw [hs] at hm
  rcases h hm with hd | ⟨m, hm, hd⟩ | hd
  · exact .inl (hc ▸ hd)
  · exact .inr (.inl ⟨m, hr m hm, hd⟩)
  · exact .inr (.inr hd)

theorem Pursued.start (h : Pursued j sh g) (hg : g i = none) (ha : o.accept sh = some sh') :
    Pursued j sh' (Function.update g i (some (o, o.first))) := by
  have others {k q} (hk : g k = some q) : Function.update g i (some (o, o.first)) k = some q := by
    rw [Function.update_of_ne]
    · exact hk
    · rintro rfl; rw [hg] at hk; cases hk
  have ids : sh'.committedIds = sh.committedIds := by
    simp only [Shared.committedIds, (Origin.accept_same ha).journal]
  intro hm
  rw [ids]
  cases o with
  | http tok r =>
    obtain ⟨-, rfl⟩ := Origin.accept_http ha
    rcases h hm with hc | hr | ⟨k, m, p, hk, rest⟩
    · exact .inl hc
    · exact .inr (.inl hr)
    · exact .inr (.inr ⟨k, m, p, others hk, rest⟩)
  | delivery m₀ =>
    obtain ⟨-, -, rfl⟩ := Origin.accept_delivery ha
    rcases h hm with hc | ⟨m, hr, hd⟩ | ⟨k, m, p, hk, rest⟩
    · exact .inl hc
    · by_cases he : m = m₀
      · subst he
        exact .inr (.inr ⟨i, m, _, Function.update_self .., hd, rfl⟩)
      · exact .inr (.inl ⟨m, (List.mem_erase_of_ne he).mpr hr, hd⟩)
    · exact .inr (.inr ⟨k, m, p, others hk, rest⟩)

theorem Pursued.call {c : Choice} {op : Op} {r} (h : Pursued j sh g) (hg : g i = some (o, p))
    (ha : o.Allows p op) (he : exec c i o op sh = some (sh', r))
    (broker : ∀ m, o = .delivery m → m.data = .job j → ∀ op', op = .rabbit op' → ∃ a, c = .ok a)
    (retries : ∀ m a, o = .delivery m → m.data = .job j → c = .ok a → sh.TurnsAway j.txId op →
      j.txId ∈ sh.committedIds) :
    Pursued j sh' (Function.update g i (some (o, p.next op r))) := by
  have committed (hc : j.txId ∈ sh.committedIds) : j.txId ∈ sh'.committedIds := by
    rcases (exec_move ha he).committedIds with ids | ⟨j', -, -, -, ids⟩
    · exact ids ▸ hc
    · exact ids ▸ List.mem_append_left _ hc
  have pursued (hm : ∃ m ∈ sh.broker.sent, m.data = .job j)
      (grows : ∀ m ∈ sh.broker.ready, m ∈ sh'.broker.ready) : j.txId ∈ sh'.committedIds ∨
      (∃ m ∈ sh'.broker.ready, m.data = .job j) ∨ ∃ k m q,
        Function.update g i (some (o, p.next op r)) k = some (.delivery m, q) ∧
        m.data = .job j ∧ q.stage.busy = true := by
    rcases h hm with hc | ⟨m, hr, hd⟩ | ⟨k, m, q, hk, hd, hq⟩
    · exact .inl (committed hc)
    · exact .inr (.inl ⟨m, grows m hr, hd⟩)
    · by_cases hki : k = i
      · subst hki
        rw [hg] at hk; cases hk
        rcases ha.onward (Origin.job?_delivery.mpr hd) hq he (broker m rfl hd)
          (fun a => retries m a rfl hd) with hb | hb | hb
        · exact .inr (.inr ⟨k, m, _, Function.update_self .., hd, hb⟩)
        · exact .inl hb
        · exact .inr (.inl hb)
      · exact .inr (.inr ⟨k, m, q, by rwa [Function.update_of_ne hki], hd, hq⟩)
  rintro ⟨m, hm, hd⟩
  rcases exec_publishes he with ⟨hr, hs⟩ | ⟨q, data, x, m', -, -, hr, hs⟩
  · exact pursued ⟨m, hs ▸ hm, hd⟩ fun m hm => hr ▸ hm
  · rw [hs, List.mem_append, List.mem_singleton] at hm
    rcases hm with hm | rfl
    · exact pursued ⟨m, hm, hd⟩ fun m hm => hr ▸ List.mem_append_left _ hm
    · exact .inr (.inl ⟨m, hr ▸ List.mem_append_right _ (.head _), hd⟩)

theorem EnvStep.run_ready {e : EnvStep} (h : e.run sh = some sh') :
    sh'.broker.sent = sh.broker.sent ∧ (sh'.broker.ready = sh.broker.ready ∨
      ∃ m, (e = .requeue m ∨ e = .redeliver m) ∧ sh'.broker.ready = sh.broker.ready ++ [m]) := by
  cases e with
  | expire k => cases h; exact ⟨rfl, .inl rfl⟩
  | tick => cases h; exact ⟨rfl, .inl rfl⟩
  | requeue m =>
    simp only [run] at h
    split at h
    · cases h; exact ⟨rfl, .inr ⟨m, .inl rfl, rfl⟩⟩
    · cases h
  | redeliver m =>
    simp only [run] at h
    split at h
    · cases h; exact ⟨rfl, .inr ⟨m, .inr rfl, rfl⟩⟩
    · cases h

end

theorem pursued_stable (j : Job) (K : Shared → Threads → Prop) :
    Machine.Stable service protocol Origin.first
      (fun s l => Alone j.txId s l ∧ Retries j.txId s l) K (Pursued j) where
  start _ _ _ _ _ _ _ _ h hg ha := h.start hg ha
  run s i o op k c sh r g p hc ht _ h hg ha he := by
    have concerns {m : Message} (hd : m.data = .job j) : m.data.concerns j.txId = true :=
      Payload.concerns_iff.mpr ⟨j, hd, rfl⟩
    refine h.call hg ha he (fun m ho hd op' hop => ?_) fun m a ho hd hok hturn => ?_
    · subst ho hop
      exact hc.1.2 m op' k ht (concerns hd)
    · subst ho hok
      exact hc.2 i a m op k rfl ht (concerns hd) hturn
  env s e sh g _ _ h he := by
    obtain ⟨hs, hr⟩ := EnvStep.run_ready he
    refine h.weaken hs (fun m hm => ?_) (by simp only [Shared.committedIds, (EnvStep.run_same he).journal])
    rcases hr with hr | ⟨m', -, hr⟩
    · exact hr ▸ hm
    · exact hr ▸ List.mem_append_left _ hm
  kill _ _ _ _ _ h := h.weaken rfl (fun _ => id) rfl

/-! ## A job that is turned away -/

/-- At most one message or thread has the job of this txId. -/
structure Solo (txId : String) (sh : Shared) (g : Threads) : Prop where
  message : (sh.broker.about txId).length ≤ 1
  thread : ∀ {i k}, Holding g i txId → Holding g k txId → i = k
  apart : ∀ {i}, Holding g i txId → sh.broker.about txId = []

/-- Nobody has the job of this txId, and its only request was made. -/
structure Gone (txId : String) (sh : Shared) (g : Threads) : Prop where
  uncommitted : txId ∉ sh.committedIds
  silent : sh.broker.about txId = []
  nobody : ∀ {i}, ¬ Holding g i txId
  asked : ∃ i tok r p, g i = some (.http tok r, p) ∧ r.txId? = some txId

section
variable {sh sh' : Shared} {g : Threads} {i : Nat} {o : Origin} {p p' : Local} {j : Job}
  {txId : String}

theorem Request.txId?_of_job {r : Request} (h : r.job? = some j) : r.txId? = some j.txId := by
  cases r <;> simp_all [Request.job?, Request.txId?]

theorem Broker.mem_about {b : Broker} {m : Message} :
    m ∈ b.about txId ↔ m ∈ b.ready ∧ m.data.concerns txId = true := List.mem_filter

/-- Where no request for the txId was made, nobody and nothing is about it. -/
theorem Traced.nothing (h : Traced (fun j => j.txId = txId) sh g)
    (hno : ∀ i tok r p, g i = some (.http tok r, p) → r.txId? ≠ some txId) :
    sh.broker.about txId = [] ∧ ∀ i, ¬ Holding g i txId := by
  have unasked {j} (ht : j.txId = txId) : ¬ Asked g j := by
    rintro ⟨i, tok, r, p, hg, -, hj, -⟩
    exact hno i tok r p hg (ht ▸ Request.txId?_of_job hj)
  constructor
  · refine List.eq_nil_iff_forall_not_mem.mpr fun m hm => ?_
    obtain ⟨hr, hc⟩ := Broker.mem_about.mp hm
    obtain ⟨j, hd, ht⟩ := Payload.concerns_iff.mp hc
    exact unasked ht (h.message (.inl hr) hd ht)
  · rintro i ⟨o, p, j, hg, hs, ht, -⟩
    cases o with
    | http tok r => exact hno i tok r p hg (ht ▸ Request.txId?_of_job hs)
    | delivery m => exact unasked ht (h.thread hg hs ht)

/-- After a call the thread holds the job only if it held it before. -/
theorem Holding.of_call {op r k} (hg : g i = some (o, p)) (ha : o.Allows p op)
    (h : Holding (Function.update g i (some (o, p.next op r))) k txId) : Holding g k txId := by
  rcases h.of_update with ⟨rfl, j, hs, ht, hh⟩ | ⟨-, h⟩
  · exact ⟨o, p, j, hg, hs, ht, Local.holds_of_next hs ha hh⟩
  · exact h

/-- A call leaves the messages of a txId alone, or its thread hands the job on. -/
theorem Origin.Allows.about {c : Choice} {op : Op} {r} (txId : String) (ha : o.Allows p op)
    (he : exec c i o op sh = some (sh', r)) : sh'.broker.about txId = sh.broker.about txId ∨
    (∃ m, sh'.broker.about txId = sh.broker.about txId ++ [m]) ∧
      ∃ j, o.subject? = some j ∧ j.txId = txId ∧ p.stage.holds = true ∧
        (p.next op r).stage.holds = false := by
  rcases exec_publishes he with ⟨hr, -⟩ | ⟨q, data, x, m, rfl, hd, hr, -⟩
  · exact .inl (by rw [Broker.about, hr]; rfl)
  · cases hc : m.data.concerns txId with
    | false => exact .inl (by simp [Broker.about, hr, List.filter_append, hc])
    | true =>
      obtain ⟨j, hj, ht⟩ := Payload.concerns_iff.mp hc
      obtain ⟨hs, hp, hn⟩ := ha.publish r (hd.symm.trans hj)
      refine .inr ⟨⟨m, ?_⟩, j, hs, ht, hp, hn⟩
      simp [Broker.about, hr, List.filter_append, hc]

/-- A thread that is not about the txId changes nothing for it. -/
theorem Holding.of_start {k} (ho : ∀ j, o.subject? = some j → j.txId ≠ txId)
    (h : Holding (Function.update g i (some (o, p))) k txId) : Holding g k txId := by
  rcases h.of_update with ⟨-, j, hs, ht, -⟩ | ⟨-, h⟩
  · exact absurd ht (ho j hs)
  · exact h

/-- A delivery takes its message out of the queue. -/
theorem accept_about {m : Message} (txId : String) (ha : (Origin.delivery m).accept sh = some sh') :
    m ∈ sh.broker.ready ∧ sh'.broker.about txId = (sh.broker.about txId).erase m := by
  obtain ⟨ready, -, rfl⟩ := Origin.accept_delivery ha
  exact ⟨ready, List.erase_filter.symm⟩

theorem not_about {m : Message} (hc : m.data.concerns txId = false) :
    ∀ j, (Origin.delivery m).subject? = some j → j.txId ≠ txId := by
  intro j hs ht
  rw [Payload.concerns_iff.mpr ⟨j, Origin.job?_delivery.mp hs, ht⟩] at hc
  cases hc

theorem Solo.start (h : Solo txId sh g) (ha : o.accept sh = some sh')
    (first : ∀ tok r, o = .http tok r → r.txId? = some txId →
      sh.broker.about txId = [] ∧ ∀ i, ¬ Holding g i txId) :
    Solo txId sh' (Function.update g i (some (o, o.first))) := by
  have only (hno : ∀ k, ¬ Holding g k txId) {k}
      (hk : Holding (Function.update g i (some (o, o.first))) k txId) : k = i := by
    rcases hk.of_update with ⟨rfl, -⟩ | ⟨-, hk⟩
    · rfl
    · exact absurd hk (hno k)
  cases o with
  | http tok r =>
    obtain ⟨-, rfl⟩ := Origin.accept_http ha
    by_cases ht : r.txId? = some txId
    · obtain ⟨silent, hno⟩ := first tok r rfl ht
      refine ⟨?_, fun hk hm => (only hno hk).trans (only hno hm).symm, fun _ => silent⟩
      rw [silent]; exact Nat.zero_le _
    · have ho : ∀ j, (Origin.http tok r).subject? = some j → j.txId ≠ txId :=
        fun j hs he => ht (he ▸ Request.txId?_of_job hs)
      exact ⟨h.message, fun hk hm => h.thread (hk.of_start ho) (hm.of_start ho),
        fun hk => h.apart (hk.of_start ho)⟩
  | delivery m =>
    obtain ⟨hm, about⟩ := accept_about txId ha
    cases hc : m.data.concerns txId with
    | false =>
      have ho := not_about hc
      rw [List.erase_of_not_mem fun hmem => by simp [(Broker.mem_about.mp hmem).2] at hc] at about
      exact ⟨about ▸ h.message, fun hk hm => h.thread (hk.of_start ho) (hm.of_start ho),
        fun hk => about ▸ h.apart (hk.of_start ho)⟩
    | true =>
      have hmem : m ∈ sh.broker.about txId := Broker.mem_about.mpr ⟨hm, hc⟩
      have hno : ∀ k, ¬ Holding g k txId := fun k hk => by
        rw [h.apart hk] at hmem; cases hmem
      have silent : sh'.broker.about txId = [] := by
        rw [about, ← List.length_eq_zero_iff, List.length_erase_of_mem hmem]
        have := h.message
        omega
      refine ⟨?_, fun hk hm => (only hno hk).trans (only hno hm).symm, fun _ => silent⟩
      rw [silent]; exact Nat.zero_le _

theorem Solo.call {c : Choice} {op : Op} {r} (h : Solo txId sh g) (hg : g i = some (o, p))
    (ha : o.Allows p op) (he : exec c i o op sh = some (sh', r)) :
    Solo txId sh' (Function.update g i (some (o, p.next op r))) := by
  have before {k} (hk : Holding (Function.update g i (some (o, p.next op r))) k txId) :
      Holding g k txId := Holding.of_call hg ha hk
  rcases ha.about txId he with same | ⟨⟨m, more⟩, j, hs, ht, hp, hn⟩
  · exact ⟨same ▸ h.message, fun hk hm => h.thread (before hk) (before hm),
      fun hk => same ▸ h.apart (before hk)⟩
  · -- the thread had the job alone, and now the message has it
    have own : Holding g i txId := ⟨o, p, j, hg, hs, ht, hp⟩
    have nobody {k} (hk : Holding (Function.update g i (some (o, p.next op r))) k txId) : False := by
      have hki := h.thread (before hk) own
      rcases hk.of_update with ⟨-, -, -, -, hh⟩ | ⟨hne, -⟩
      · rw [hn] at hh; cases hh
      · exact hne hki
    refine ⟨?_, fun hk => (nobody hk).elim, fun hk => (nobody hk).elim⟩
    rw [more, h.apart own]; exact le_rfl

theorem Solo.env (h : Solo txId sh g) (he : sh'.broker.about txId = sh.broker.about txId) :
    Solo txId sh' g := ⟨he ▸ h.message, h.thread, fun hk => he ▸ h.apart hk⟩

theorem Gone.call {c : Choice} {op : Op} {r} (h : Gone txId sh g) (hg : g i = some (o, p))
    (ha : o.Allows p op) (he : exec c i o op sh = some (sh', r)) :
    Gone txId sh' (Function.update g i (some (o, p.next op r))) where
  uncommitted := by
    rcases (exec_move ha he).committedIds with ids | ⟨j, hj, -, hl, ids⟩
    · rw [ids]; exact h.uncommitted
    · rw [ids, List.mem_append, List.mem_singleton]
      rintro (hc | rfl)
      · exact h.uncommitted hc
      · refine h.nobody ⟨o, p, j, hg, Origin.subject_of_job hj, rfl, ?_⟩
        cases hp : p.stage <;> rw [hp] at hl <;> first | rfl | cases hl
  silent := by
    rcases ha.about txId he with same | ⟨-, j, hs, ht, hp, -⟩
    · rw [same]; exact h.silent
    · exact (h.nobody ⟨o, p, j, hg, hs, ht, hp⟩).elim
  nobody hk := h.nobody (Holding.of_call hg ha hk)
  asked := by
    obtain ⟨k, tok, q, l, hk, ht⟩ := h.asked
    by_cases hki : k = i
    · subst hki
      rw [hg] at hk; cases hk
      exact ⟨k, tok, q, _, Function.update_self .., ht⟩
    · exact ⟨k, tok, q, l, by rwa [Function.update_of_ne hki], ht⟩

theorem Gone.start (h : Gone txId sh g) (hg : g i = none) (ha : o.accept sh = some sh')
    (other : ∀ tok r, o = .http tok r → r.txId? ≠ some txId) :
    Gone txId sh' (Function.update g i (some (o, o.first))) := by
  have ids : sh'.committedIds = sh.committedIds := by
    simp only [Shared.committedIds, (Origin.accept_same ha).journal]
  have asked : ∃ k tok r p, Function.update g i (some (o, o.first)) k = some (.http tok r, p) ∧
      r.txId? = some txId := by
    obtain ⟨k, tok, r, p, hk, ht⟩ := h.asked
    refine ⟨k, tok, r, p, ?_, ht⟩
    rw [Function.update_of_ne]
    · exact hk
    · rintro rfl; rw [hg] at hk; cases hk
  cases o with
  | http tok r =>
    obtain ⟨-, rfl⟩ := Origin.accept_http ha
    have ho : ∀ j, (Origin.http tok r).subject? = some j → j.txId ≠ txId :=
      fun j hs he => other tok r rfl (he ▸ Request.txId?_of_job hs)
    exact ⟨h.uncommitted, h.silent, fun hk => h.nobody (hk.of_start ho), asked⟩
  | delivery m =>
    obtain ⟨hm, about⟩ := accept_about txId ha
    have hc : m.data.concerns txId = false := by
      by_contra hc
      have hmem : m ∈ sh.broker.about txId :=
        Broker.mem_about.mpr ⟨hm, Bool.eq_true_of_not_eq_false hc⟩
      rw [h.silent] at hmem; cases hmem
    exact ⟨ids ▸ h.uncommitted, by rw [about, h.silent]; rfl,
      fun hk => h.nobody (hk.of_start (not_about hc)), asked⟩

/-- Being turned away is the end of the thread. -/
theorem turned_away {a : Answer} {op : Op} {r} (hj : o.job? = some j) (ha : o.Allows p op)
    (he : op.run a i o sh = some (sh', r)) (hturn : sh.TurnsAway j.txId op) :
    p.stage.holds = true ∧ (p.next op r).stage.holds = false ∧ sh' = sh := by
  cases op with
  | redis op => cases op with
    | get k => cases k with
      | walletRequest t =>
        obtain ⟨rfl, v, hv, hf⟩ := hturn
        obtain ⟨-, -, -, hp⟩ := ha.resolve_left (by rw [hj]; nofun)
        cases he
        refine ⟨by rw [hp]; rfl, ?_, rfl⟩
        simp only [RedisOp.run, hv, Local.next, hf, if_true]
        rfl
      | _ => exact hturn.elim
    | _ => exact hturn.elim
  | prisma op => cases op with
    | walletRequestCreate row =>
      obtain ⟨hrow, hrec⟩ := hturn
      obtain ⟨-, -, -, hp⟩ := ha.resolve_right fun hrec => by
        cases o with
        | http _ _ => cases hj
        | delivery _ => cases hrec
      rcases walletRequestCreate_skips he with ⟨row', rfl⟩ | ⟨rfl, rfl, -⟩
      · simp only [Op.run, PrismaOp.run] at he
        split at he
        · next t ins =>
          have hnone : sh.db.walletRequests.find? row.txId = none := (Table.insert?_eq_some.mp ins).1
          rw [Shared.Recorded, ← hrow, hnone] at hrec
          cases hrec
        · cases he
      · exact ⟨by rw [hp]; rfl, rfl, rfl⟩
    | _ => exact hturn.elim
  | _ => exact hturn.elim

/-- A thread that is turned away leaves the job to nobody. -/
theorem Solo.gone {p' : Local} (h : Solo txId sh g) (hg : g i = some (o, p))
    (traced : Traced (fun j => j.txId = txId) sh g) (hj : o.job? = some j) (ht : j.txId = txId)
    (hp : p.stage.holds = true) (hp' : p'.stage.holds = false) (hc : txId ∉ sh.committedIds) :
    Gone txId sh (Function.update g i (some (o, p'))) := by
  have own : Holding g i txId := ⟨o, p, j, hg, Origin.subject_of_job hj, ht, hp⟩
  have asked : Asked (Function.update g i (some (o, p'))) j :=
    (traced.thread hg hj ht).update (.inr ⟨p, hg⟩)
  obtain ⟨k, tok, r, q, hk, -, hr, -⟩ := asked
  refine ⟨hc, h.apart own, fun {m} hm => ?_, k, tok, r, q, hk, ht ▸ Request.txId?_of_job hr⟩
  rcases hm.of_update with ⟨-, -, -, -, hh⟩ | ⟨hne, hm⟩
  · rw [hp'] at hh; cases hh
  · exact hne (h.thread hm own)

end

theorem alone_env {txId : String} {s : State} {e : EnvStep} {sh : Shared}
    (hc : Alone txId s (.env e)) (he : e.run s.shared = some sh) :
    sh.broker.about txId = s.shared.broker.about txId := by
  rcases (EnvStep.run_ready he).2 with hr | ⟨m, rfl | rfl, hr⟩
  · rw [Broker.about, hr]; rfl
  · have hm : m.data.concerns txId = false := hc.2
    simp [Broker.about, hr, List.filter_append, hm]
  · have hm : m.data.concerns txId = false := hc.2
    simp [Broker.about, hr, List.filter_append, hm]

/-- A first request for the txId finds none before it. -/
theorem alone_start {txId tok r} {s : State} {g : Threads} (hc : Alone txId s (.start (.http tok r)))
    (known : Machine.Known g s.threads) (ht : r.txId? = some txId) :
    ∀ i tok' r' p, g i = some (.http tok' r', p) → r'.txId? ≠ some txId := by
  intro i tok' r' p hg
  obtain ⟨q, hq⟩ := known hg
  exact hc.2 ht tok' r' ⟨q, List.mem_of_getElem? hq⟩

theorem solo_stable (txId : String) : Machine.Stable service protocol Origin.first (Alone txId)
    (fun sh g => True ∧ Traced (fun j => j.txId = txId) sh g) (Solo txId) where
  start s o sh g i hc known hk h hg ha := by
    refine h.start ha fun tok r ho ht => ?_
    subst ho
    exact hk.2.nothing (alone_start hc known ht)
  run _ _ _ _ _ _ _ _ _ _ _ _ _ h hg ha he := h.call hg ha he
  env _ _ _ _ hc _ h he := h.env (alone_env hc he)
  kill _ _ _ _ _ h := h.env rfl

theorem gone_stable (txId : String) (K : Shared → Threads → Prop) :
    Machine.Stable service protocol Origin.first (Alone txId) K (Gone txId) where
  start s o sh g i hc known _ h hg ha := by
    refine h.start hg ha fun tok r ho ht => ?_
    subst ho
    obtain ⟨k, tok', r', p, hk, ht'⟩ := h.asked
    exact alone_start hc known ht k tok' r' p hk ht'
  run _ _ _ _ _ _ _ _ _ _ _ _ _ h hg ha he := h.call hg ha he
  env s e sh g hc _ h he := ⟨by
    simpa only [Shared.committedIds, (EnvStep.run_same he).journal] using h.uncommitted,
    (alone_env hc he).trans h.silent, h.nobody, h.asked⟩
  kill _ _ _ _ _ h := ⟨h.uncommitted, h.silent, h.nobody, h.asked⟩

/-- A funding or transfer delivery that has ended has no job before it. -/
theorem State.Done.not_busy {s : State} {g : Threads} {j : Job} {i : Nat} {m : Message} {p : Local}
    (done : s.Done j.txId) (ht : Machine.Tracks .crashed protocol Ends s.threads g)
    (hg : g i = some (.delivery m, p)) (hd : m.data = .job j) (hj : j.queue ≠ .walletWithdrawal) :
    p.stage.busy ≠ true := by
  intro hp
  obtain ⟨prog, hi⟩ := ht.known hg
  have ended := done.finished _ (List.mem_of_getElem? hi) m rfl
    (Payload.concerns_iff.mpr ⟨j, hd, rfl⟩)
  obtain ⟨q, hg', hw | hw⟩ := ht.obeys i _ hi
  · rw [hg] at hg'; cases hg'
    cases prog with
    | call _ _ => cases ended
    | ret r =>
      have ends : Ends (.delivery m) r p := hw
      rcases ends.settled j (Origin.job?_delivery.mpr hd) hj with hs | hs | hs | hs <;>
        rw [hs] at hp <;> cases hp
  · cases hw; cases ended

/-- Before anything is published there is nobody to hold the job. -/
theorem Solo.first {s : State} {txId : String} (unused : s.shared.broker.Lacks fun k => k.txId = txId) :
    Solo txId s.shared noThreads := by
  have silent : s.shared.broker.about txId = [] := by
    refine List.eq_nil_iff_forall_not_mem.mpr fun m hm => ?_
    obtain ⟨hr, hc⟩ := Broker.mem_about.mp hm
    obtain ⟨k, hd, hk⟩ := Payload.concerns_iff.mp hc
    exact unused m k (.inl hr) hd hk
  exact ⟨by rw [silent]; exact Nat.zero_le _, fun ⟨_, _, _, hg, _⟩ => (nomatch hg), fun _ => silent⟩

/-- A step that turns the only holder away leaves nobody. -/
theorem gone_of_not_retries {s t : State} {l : Step} {g : Threads} {txId : String}
    (ht : Machine.Tracks .crashed protocol Ends s.threads g)
    (traced : Traced (fun k => k.txId = txId) s.shared g) (solo : Solo txId s.shared g)
    (hs : step s l = some t) (hn : ¬ Retries txId s l) :
    ∃ g', Machine.Tracks .crashed protocol Ends t.threads g' ∧ Gone txId t.shared g' := by
  simp only [Retries, not_forall] at hn
  obtain ⟨i, a, m, op, k, rfl, hi, hc, hturn, hmem⟩ := hn
  obtain ⟨j, hd, hj⟩ := Payload.concerns_iff.mp hc
  have hjob := Origin.job?_delivery.mpr hd
  obtain ⟨sh, r, he, rfl⟩ := (Machine.step_run hi).mp hs
  obtain ⟨p, hg, allowed, rest⟩ := ht.called hi
  obtain ⟨hp, hp', rfl⟩ := turned_away hjob allowed he (hj ▸ hturn)
  exact ⟨_, ht.set hi (.inl (rest r)), solo.gone hg traced hjob hj hp hp' hmem⟩

/-- A funding or transfer job that is not turned away before it is committed is
committed or dead-lettered once its messages are delivered and its deliveries
have ended. A job that is turned away is never committed nor dead-lettered. -/
theorem retried_or_dead_lettered {s : State} (j : Job) (hq : Quiet s)
    (unused : s.shared.broker.Lacks fun k => k.txId = j.txId) (hj : j.queue ≠ .walletWithdrawal) :
    (∀ t, Reach (fun s l => Alone j.txId s l ∧ Retries j.txId s l) s t →
      (∃ m ∈ t.shared.broker.sent, m.data = .job j) → t.Done j.txId →
      j.txId ∈ t.shared.committedIds ∨
        ∃ m ∈ t.shared.broker.ready, m.queue = .walletFundingDead ∧ m.data = .job j) ∧
    ∀ t l u, Reach (Alone j.txId) s t → Alone j.txId t l → step t l = some u →
      ¬ Retries j.txId t l → ∀ v, Reach (Alone j.txId) u v →
      j.txId ∉ v.shared.committedIds ∧ ∀ m ∈ v.shared.broker.ready, m.data ≠ .job j := by
  have concerns {m : Message} (hd : m.data = .job j) : m.data.concerns j.txId = true :=
    Payload.concerns_iff.mpr ⟨j, hd, rfl⟩
  constructor
  · intro t h published done
    have start : Pursued j s.shared noThreads := by
      intro hsent
      obtain ⟨m, hm, hd⟩ := hsent
      exact absurd rfl (unused m j (.inr (.inr hm)) hd)
    obtain ⟨g, ht, pursued⟩ := (pursued_stable j _).invariant (service_obeys fun _ _ h => h.1.1)
      hq.tracks start h
    rcases pursued published with hc | ⟨m, hm, hd⟩ | ⟨i, m, p, hg, hd, hp⟩
    · exact .inl hc
    · exact .inr ⟨m, hm, done.delivered m hm (concerns hd), hd⟩
    · exact absurd hp (done.not_busy ht hg hd hj)
  · intro t l u h hl hs hn v hv
    have base := (traced_stable (fun k => k.txId = j.txId) (Alone j.txId) fun _ _ => True).and
      (solo_stable j.txId)
    have obeys := service_obeys (fun _ _ h => h.1 : ∀ s l, Alone j.txId s l → WalletRun s l)
    obtain ⟨g, ht, traced, solo⟩ := base.invariant obeys hq.tracks
      ⟨traced_noThreads unused, .first unused⟩ h
    obtain ⟨g₁, ht₁, gone₁⟩ := gone_of_not_retries ht traced solo hs hn
    obtain ⟨g₂, -, gone⟩ := (gone_stable j.txId _).invariant obeys ht₁ gone₁ hv
    refine ⟨gone.uncommitted, fun m hm hd => ?_⟩
    have hmem : m ∈ v.shared.broker.about j.txId := Broker.mem_about.mpr ⟨hm, concerns hd⟩
    rw [gone.silent] at hmem; cases hmem

/-- A deposit into a wallet that is not there: the first attempt fails and is
published again, and the second is delivered. -/
def lostDeposit : FundWalletDto := ⟨1, 1, "USD", 10, "a"⟩

def lostDepositRetried : List Step :=
  calls 0 4 ++
  .start (.delivery ⟨.walletFunding, .job (.funding lostDeposit), none, 0⟩) :: calls 1 8 ++
  [.start (.delivery ⟨.walletFunding, .job (.funding lostDeposit), some 1, 1⟩)]

/-- A delivery starts, or a call answers. -/
def Step.goesOn : Step → Bool
  | .start (.delivery _) | .run _ (.ok _) => true
  | _ => false

theorem alone_of_goesOn {txId : String} {l : Step} (h : l.goesOn = true) (s : State) :
    Alone txId s l := by
  cases l with
  | start o => cases o with
    | http _ _ => cases h
    | delivery _ => exact ⟨rfl, trivial⟩
  | run i c => cases c with
    | ok a => exact ⟨rfl, fun _ _ _ _ _ => ⟨a, rfl⟩⟩
    | _ => cases h
  | _ => cases h

theorem alone_first : Alone "a" State.empty (.start (.http 1 (.fundWallet lostDeposit))) := by
  refine ⟨rfl, fun _ tok r hr => ?_⟩
  obtain ⟨p, hp⟩ := hr
  cases hp

/-- The only request for "a" comes first. -/
theorem reach_lostDeposit {ls : List Step} {t : State} (hls : ls.all Step.goesOn = true)
    (h : runSteps (.start (.http 1 (.fundWallet lostDeposit)) :: ls) State.empty = some t) :
    Reach (Alone "a") State.empty t := by
  simp only [runSteps, Machine.runs, Option.bind_eq_some_iff] at h
  obtain ⟨s, hs, ht⟩ := h
  exact (Machine.Reach.refl.tail alone_first hs).trans
    (Machine.reach_of_runs (fun l hl => alone_of_goesOn (List.all_eq_true.mp hls l hl)) ht)

/-- No request arrives, the broker answers, and nobody is about to be turned away. -/
def undisturbed (s : State) : Step → Bool
  | .start (.delivery _) => true
  | .run i c => s.threads[i]?.all fun th => match th.prog with
    | .call (.rabbit _) _ => match c with
      | .ok _ => true
      | _ => false
    | .call (.redis (.get (.walletRequest t))) _ =>
      (s.shared.redis (.walletRequest t)).all fun v => !v.status.final
    | .call (.prisma (.walletRequestCreate row)) _ =>
      (s.shared.db.walletRequests.find? row.txId).isNone
    | _ => true
  | _ => false

theorem alone_of_undisturbed {s : State} {l : Step} (txId : String) (h : undisturbed s l = true) :
    Alone txId s l ∧ Retries txId s l := by
  cases l with
  | start o => cases o with
    | http _ _ => cases h
    | delivery _ => exact ⟨⟨rfl, trivial⟩, fun i a m op k hl => by cases hl⟩
  | run i c =>
    refine ⟨⟨rfl, fun m op k hi _ => ?_⟩, fun i' a m op k hl hi _ hturn => ?_⟩
    · simp only [undisturbed, hi, Option.all_some] at h
      cases c with
      | ok a => exact ⟨a, rfl⟩
      | _ => cases h
    · cases hl
      simp only [undisturbed, hi, Option.all_some] at h
      cases op with
      | redis op => cases op with
        | get key => cases key with
          | walletRequest t =>
            obtain ⟨rfl, v, hv, hf⟩ := hturn
            simp [hv, hf] at h
          | _ => exact hturn.elim
        | _ => exact hturn.elim
      | prisma op => cases op with
        | walletRequestCreate row =>
          obtain ⟨rfl, hrec⟩ := hturn
          rw [Shared.Recorded, Option.isSome_iff_ne_none] at hrec
          exact absurd (Option.isNone_iff_eq_none.mp h) hrec
        | _ => exact hturn.elim
      | _ => exact hturn.elim
  | _ => cases h

/-- The thread is a delivery about the txId that is about to look it up. -/
def ServiceThread.looksUp (th : ServiceThread) (txId : String) : Bool :=
  match th.origin, th.prog with
  | .delivery m, .call (.redis (.get (.walletRequest t))) _ => m.data.concerns txId && t = txId
  | _, _ => false

theorem not_retries {s : State} {i : Nat} {th : ServiceThread} {a : Answer} {txId : String}
    {v : CachedRequest} (hi : s.threads[i]? = some th) (hl : th.looksUp txId = true)
    (hv : s.shared.redis (.walletRequest txId) = some v) (hf : v.status.final = true)
    (hc : txId ∉ s.shared.committedIds) : ¬ Retries txId s (.run i (.ok a)) := by
  obtain ⟨o, prog⟩ := th
  simp only [ServiceThread.looksUp] at hl
  split at hl
  · simp only [Bool.and_eq_true, decide_eq_true_eq] at hl
    obtain ⟨hm, rfl⟩ := hl
    exact fun h => hc (h i a _ _ _ rfl hi hm ⟨rfl, v, hv, hf⟩)
  · cases hl

/-- An attempt during which Redis does not answer. -/
def attemptWithoutRedis (i : Nat) (xAttempts : Option Nat) (tag : Nat) : List Step :=
  [.start (.delivery ⟨.walletFunding, .job (.funding lostDeposit), xAttempts, tag⟩),
    .run i .fail, .run i (.ok {}), .run i .fail] ++ calls i 3

def threeAttempts : List Step :=
  calls 0 4 ++ attemptWithoutRedis 1 none 0 ++ attemptWithoutRedis 2 (some 1) 1 ++
    attemptWithoutRedis 3 (some 2) 2

theorem threeAttempts_runs : ∃ t,
    Reach (fun s l => Alone "a" s l ∧ Retries "a" s l) State.empty t ∧
    (∃ m ∈ t.shared.broker.sent, m.data = .job (.funding lostDeposit)) ∧ t.Done "a" ∧
    "a" ∉ t.shared.committedIds := by
  have h : ((step State.empty (.start (.http 1 (.fundWallet lostDeposit)))).bind
      (service.runsIf .crashed undisturbed threeAttempts)).any (fun t =>
        t.threads.all ServiceThread.ended ∧
        (t.shared.broker.ready.all fun m => m.queue = .walletFundingDead) ∧
        (t.shared.broker.sent.any fun m => m.data = .job (.funding lostDeposit)) ∧
        "a" ∉ t.shared.committedIds) = true := by decide +kernel
  obtain ⟨t, ht, hp⟩ := Option.any_eq_true _ _ |>.mp h
  obtain ⟨s, hs, ht⟩ := Option.bind_eq_some_iff.mp ht
  obtain ⟨ended, ready, sent, hc⟩ := of_decide_eq_true hp
  have first : Retries "a" State.empty (.start (.http 1 (.fundWallet lostDeposit))) :=
    fun i a m op k hl => by cases hl
  refine ⟨t, (Machine.Reach.refl.tail ⟨alone_first, first⟩ hs).trans
    (Machine.reach_of_runsIf (fun s l => alone_of_undisturbed "a") ht), by simpa using sent,
    ⟨fun m hm _ => by simpa using List.all_eq_true.mp ready m hm, ?_⟩, hc⟩
  exact fun th hth _ _ _ => List.all_eq_true.mp ended th hth

theorem retried_or_dead_lettered_lost :
    (∃ t, Reach (fun s l => Alone "a" s l ∧ Retries "a" s l) State.empty t ∧ t.Done "a" ∧
      "a" ∉ t.shared.committedIds ∧ ∃ m ∈ t.shared.broker.ready,
        m.queue = .walletFundingDead ∧ m.data = .job (.funding lostDeposit)) ∧
    ∃ u, Reach (Alone "a") State.empty u ∧
      ∀ v, Reach (Alone "a") u v → "a" ∉ v.shared.committedIds ∧
        ∀ m ∈ v.shared.broker.ready, m.data ≠ .job (.funding lostDeposit) := by
  have unused : State.empty.shared.broker.Lacks fun k => k.txId = lostDeposit.txId :=
    State.empty_idle.lacks
  constructor
  · obtain ⟨t, reach, sent, done, hc⟩ := threeAttempts_runs
    rcases (retried_or_dead_lettered (.funding lostDeposit) State.empty_quiet unused
      (by decide)).1 t reach sent done with hcommitted | dead
    · exact absurd hcommitted hc
    · exact ⟨t, reach, done, hc, dead⟩
  · have h : ((runSteps (.start (.http 1 (.fundWallet lostDeposit)) :: lostDepositRetried)
        State.empty).bind fun t => (step t (.run 2 (.ok {}))).map fun _ => decide (
          t.threads[2]?.any (ServiceThread.looksUp · "a") ∧
          (t.shared.redis (.walletRequest "a")).any (·.status.final) ∧
          "a" ∉ t.shared.committedIds)) = some true := by decide +kernel
    obtain ⟨t, u, ht, hu, hp⟩ := runSteps_step h
    obtain ⟨hth, hredis, hc⟩ := of_decide_eq_true hp
    obtain ⟨th, hi, hl⟩ := Option.any_eq_true _ _ |>.mp hth
    obtain ⟨v, hv, hf⟩ := Option.any_eq_true _ _ |>.mp hredis
    have reach : Reach (Alone "a") State.empty t := reach_lostDeposit (by decide) ht
    have last : Alone "a" t (.run 2 (.ok {})) := alone_of_goesOn rfl t
    exact ⟨u, reach.tail last hu, (retried_or_dead_lettered (.funding lostDeposit)
      State.empty_quiet unused (by decide)).2 t _ u reach last hu (not_retries hi hl hv hf hc)⟩

/-- Every message is delivered, every delivery has returned, and the deposit is
neither committed nor a dead letter. -/
theorem failed_deposit_is_lost : ∃ t, Reach (Alone "a") State.empty t ∧
    (∃ m ∈ t.shared.broker.sent, m.data = .job (.funding lostDeposit)) ∧ t.Done "a" ∧
    "a" ∉ t.shared.committedIds ∧ ∀ m ∈ t.shared.broker.ready, m.data ≠ .job (.funding lostDeposit) := by
  have h : (runSteps (.start (.http 1 (.fundWallet lostDeposit)) ::
      (lostDepositRetried ++ calls 2 1)) State.empty).any (fun t =>
        t.threads.all ServiceThread.ended ∧ t.shared.broker.ready = [] ∧
        (t.shared.broker.sent.any fun m => m.data = .job (.funding lostDeposit)) ∧
        "a" ∉ t.shared.committedIds) = true := by decide +kernel
  obtain ⟨t, ht, hp⟩ := runSteps_any h
  obtain ⟨ended, ready, sent, hc⟩ := of_decide_eq_true hp
  refine ⟨t, reach_lostDeposit (by decide) ht, by simpa using sent, ⟨?_, ?_⟩, hc, ?_⟩
  · rw [ready]; exact fun _ hm => absurd hm List.not_mem_nil
  · exact fun th hth _ _ _ => List.all_eq_true.mp ended th hth
  · rw [ready]; exact fun _ hm => absurd hm List.not_mem_nil

end Pactic
