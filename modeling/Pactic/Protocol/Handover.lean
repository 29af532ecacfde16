import Pactic.Protocol.Messages
import Pactic.Protocol.Requests

/-! # Who answers for a job

A job lies with the request that asks for it, with a ready message or with a
delivery. A thread that hands it on, finds it taken or loses it answers for it
no more. So there is one holder at most while the broker does not repeat itself
and no second request uses the txId. -/
namespace Pactic
open Keyed Resumption

def Payload.concerns (txId : String) : Payload → Bool
  | job j => j.txId = txId
  | _ => false

/-- The ready messages of a txId, dead letters included. -/
def Broker.about (b : Broker) (txId : String) : List Message :=
  b.ready.filter fun m => m.data.concerns txId

/-- The job a thread asks for or was delivered. -/
def Origin.subject? : Origin → Option Job
  | http _ r => r.job?
  | delivery m => (delivery m).job?

abbrev Holding : Threads → Nat → String → Prop := Standing Origin.subject? Stage.holds

section
variable {sh sh' : Shared} {g : Threads} {i : Nat} {o : Origin} {p p' : Local} {j : Job}
  {txId : String} {m : Message}

theorem Payload.concerns_iff {d : Payload} :
    d.concerns txId = true ↔ ∃ j, d = .job j ∧ j.txId = txId := by
  cases d <;> simp [concerns]

theorem Payload.isJob_iff {d : Payload} : d.isJob = true ↔ ∃ j, d = .job j := by
  cases d <;> simp [isJob]

theorem Origin.subject_of_job (h : o.job? = some j) : o.subject? = some j := by
  cases o with
  | http _ _ => cases h
  | delivery _ => exact h

theorem Origin.job?_delivery : (delivery m).job? = some j ↔ m.data = .job j := by
  simp only [job?]
  split
  · next he => rw [he]; simp
  · next hne => exact iff_of_false (fun hj => by cases hj) fun he => hne j he

theorem Local.next_rabbit (p : Local) (op : RabbitOp) (r) :
    p.next (.rabbit op) r = p ∨ (p.next (.rabbit op) r).stage.holds = false := by
  have ite {b : Bool} {s : Stage} (hs : s.holds = false) :
      (if b then { p with stage := s } else p) = p ∨
        (if b then { p with stage := s } else p).stage.holds = false := by
    cases b
    · exact .inl rfl
    · exact .inr hs
  cases op with
  | ack m => exact .inl rfl
  | assertQueue q => cases r with
    | ok _ => exact .inl rfl
    | error _ => exact ite rfl
  | sendToQueue q data x => cases r <;> exact ite rfl

/-- The calls of a session are made by a thread that holds its job. -/
theorem Origin.Allows.tx_holds {op} (ha : o.Allows p (.tx op)) : p.stage.holds = true := by
  cases op with
  | begin => rw [ha.2]; rfl
  | walletFindUnique id => rw [ha]; rfl
  | walletUpdate id v inc nv =>
    obtain ⟨_, n, _, lg, md, -, hp, -⟩ := ha
    rw [hp]; rfl
  | walletRequestUpdate t s =>
    obtain ⟨_, n, lg, -, hp, -⟩ := ha
    rw [hp]; rfl
  | transactionCreate rows =>
    obtain ⟨_, n, md, -, hp, -⟩ := ha
    rw [hp]; rfl
  | commit =>
    obtain ⟨_, -, hp⟩ := ha
    rw [hp]; rfl
  | rollback => exact ha

/-- A thread that has given its job away does not get it back. -/
theorem Local.holds_of_next {op r} (hs : o.subject? = some j) (ha : o.Allows p op)
    (h : (p.next op r).stage.holds = true) : p.stage.holds = true := by
  cases op with
  | redis op =>
    cases op with
    | get k =>
      cases k with
      | walletRequest t =>
        cases r with
        | error e => exact h
        | ok v => cases v with
          | none => exact h
          | some v =>
            simp only [next] at h
            split at h
            · cases h
            · exact h
      | _ => exact h
    | _ => exact h
  | prisma op =>
    cases op with
    | walletRequestCreate row =>
      rcases ha with ⟨j, -, -, hf⟩ | hrec
      · rw [hf]; rfl
      · -- only `createWallet` records a row, and it enqueues nothing
        cases o with
        | delivery m => cases hrec
        | http tok r => cases r with
          | createWallet b => cases hs
          | _ => cases hrec
    | walletFindUnique id =>
      cases r with
      | error e => exact h
      | ok w => cases w <;> exact h
    | _ => exact h
  | tx op => exact ha.tx_holds
  | rabbit op =>
    rcases p.next_rabbit op r with hn | hn
    · rw [hn] at h; exact h
    · rw [hn] at h; cases h
  | library op => exact ha.elim

/-- A job is published by a thread that holds it, and no longer does so then. -/
theorem Origin.Allows.publish {q data x} (ha : o.Allows p (.rabbit (.sendToQueue q data x)))
    (r) (hd : data = .job j) : o.subject? = some j ∧ p.stage.holds = true ∧
      (p.next (.rabbit (.sendToQueue q data x)) r).stage.holds = false := by
  subst hd
  refine and_assoc.mp ⟨?_, ?_⟩
  · rcases ha with hf | ⟨j', ask, hj, -, -, hp⟩ | ⟨m, rfl, hm, -, -, hp⟩
    · cases hf
    · cases hj
      cases o with
      | http tok r => exact ⟨ask.1, by rw [hp]; rfl⟩
      | delivery m => exact ask.elim
    · exact ⟨job?_delivery.mpr hm.symm, hp⟩
  · cases r <;> rfl

/-- A call publishes one message or none. -/
theorem exec_publishes {c : Choice} {op : Op} {r} (h : exec c i o op sh = some (sh', r)) :
    sh'.broker.ready = sh.broker.ready ∧ sh'.broker.sent = sh.broker.sent ∨
    ∃ q data x m, op = .rabbit (.sendToQueue q data x) ∧ m.data = data ∧
      sh'.broker.ready = sh.broker.ready ++ [m] ∧ sh'.broker.sent = sh.broker.sent ++ [m] := by
  rcases exec_broker h with hb | ⟨op', rfl, hb⟩
  · exact .inl ⟨by rw [hb], by rw [hb]⟩
  · cases op' with
    | assertQueue q => exact .inl ⟨by rw [hb]; rfl, by rw [hb]; rfl⟩
    | ack m => exact .inl ⟨by rw [hb]; rfl, by rw [hb]; rfl⟩
    | sendToQueue q data x =>
      exact .inr ⟨q, data, x, _, rfl, rfl, by rw [hb]; rfl, by rw [hb]; rfl⟩

/-- A call that would make a thread skip the job with this txId. -/
def Shared.TurnsAway (sh : Shared) (txId : String) : Op → Prop
  | .redis (.get (.walletRequest t)) =>
    t = txId ∧ ∃ v, sh.redis (.walletRequest txId) = some v ∧ v.status.final = true
  | .prisma (.walletRequestCreate row) => row.txId = txId ∧ sh.Recorded txId
  | _ => False

/-- A delivery at this stage still has its job before it. -/
def Stage.busy (s : Stage) : Bool := s.holds && s ≠ .committed

theorem walletRequestCreate_skips {row : WalletRequest} {a r₀}
    (h : (Op.prisma (.walletRequestCreate row)).run a i o sh = some (sh', r₀)) :
    (∃ row', r₀ = .ok row') ∨ r₀ = .error .p2002 ∧ sh' = sh ∧ sh.Recorded row.txId := by
  simp only [Op.run, PrismaOp.run] at h
  split at h
  · cases h; exact .inl ⟨row, rfl⟩
  · next hnone =>
    cases h
    exact .inr ⟨rfl, rfl, Table.find?_isSome.mpr (Table.insert?_eq_none.mp hnone)⟩

theorem commit_commits {a r₀} (hj : o.job? = some j)
    (h : (Op.tx .commit).run a i o sh = some (sh', r₀)) :
    (∃ e, r₀ = .error e) ∨ j.txId ∈ sh'.committedIds := by
  simp only [Op.run, TxOp.run, Option.map_eq_some_iff] at h
  obtain ⟨tx, -, h⟩ := h
  unfold Shared.commit at h
  split at h
  · cases h; exact .inl ⟨_, rfl⟩
  · simp only [hj] at h
    cases h
    exact .inr (by rw [Shared.committedIds_note]; exact List.mem_append_right _ (.head _))

/-- Past this call the job is still before the delivery, or it is committed, or
a message carries it. -/
def Onward (j : Job) (sh : Shared) (p : Local) : Prop :=
  p.stage.busy = true ∨ j.txId ∈ sh.committedIds ∨ ∃ m ∈ sh.broker.ready, m.data = .job j

/-- A lookup in the cache turns the delivery away or lets it go on. -/
theorem Origin.Allows.redis_onward {c : Choice} {op} {r} (ha : o.Allows p (.redis op))
    (hj : o.job? = some j) (hp : p.stage.busy = true)
    (he : exec c i o (.redis op) sh = some (sh', r))
    (retries : ∀ a, c = .ok a → sh.TurnsAway j.txId (.redis op) → j.txId ∈ sh.committedIds) :
    Onward j sh' (p.next (.redis op) r) := by
  cases op with
  | get k =>
    cases k with
    | walletRequest t =>
      obtain ⟨j', hj', rfl, -⟩ := ha.resolve_left (by rw [hj]; intro hn; cases hn)
      rw [hj] at hj'; cases hj'
      rcases exec_answer he with ⟨a, hc, hrun⟩ | rfl
      · cases hrun
        simp only [RedisOp.run]
        cases hv : sh.redis (.walletRequest j.txId) with
        | none => exact .inl hp
        | some v =>
          simp only [Local.next]
          split
          · next hf => exact .inr (.inl (retries a hc ⟨rfl, v, hv, hf⟩))
          · exact .inl hp
      · exact .inl hp
    | _ => exact .inl hp
  | _ => exact .inl hp

/-- The insert of the request row does, too. -/
theorem Origin.Allows.prisma_onward {c : Choice} {op} {r} (ha : o.Allows p (.prisma op))
    (hj : o.job? = some j) (hp : p.stage.busy = true)
    (he : exec c i o (.prisma op) sh = some (sh', r))
    (retries : ∀ a, c = .ok a → sh.TurnsAway j.txId (.prisma op) → j.txId ∈ sh.committedIds) :
    Onward j sh' (p.next (.prisma op) r) := by
  cases op with
  | walletRequestCreate row =>
    obtain ⟨j', hj', rfl, -⟩ := ha.resolve_right fun hrec => by
      cases o with
      | http _ _ => cases hj
      | delivery _ => cases hrec
    rw [hj] at hj'; cases hj'
    rcases exec_answer he with ⟨a, hc, hrun⟩ | rfl
    · rcases walletRequestCreate_skips hrun with ⟨row, rfl⟩ | ⟨rfl, rfl, hrec⟩
      · exact .inl rfl
      · exact .inr (.inl (retries a hc ⟨rfl, hrec⟩))
    · exact .inl rfl
  | walletFindUnique id =>
    cases r with
    | error e => exact .inl hp
    | ok w => cases w <;> exact .inl hp
  | _ => exact .inl hp

/-- A session goes on, ends without effect or commits the job. -/
theorem Origin.Allows.tx_onward {c : Choice} {op} {r} (ha : o.Allows p (.tx op))
    (hj : o.job? = some j) (hp : p.stage.busy = true)
    (he : exec c i o (.tx op) sh = some (sh', r)) : Onward j sh' (p.next (.tx op) r) := by
  cases op with
  | commit =>
    rcases exec_answer he with ⟨a, -, hrun⟩ | rfl
    · rcases commit_commits hj hrun with ⟨e, rfl⟩ | hc
      · exact .inl rfl
      · exact .inr (.inl hc)
    · exact .inl rfl
  | rollback => exact .inl rfl
  | begin => cases r <;> exact .inl rfl
  | walletFindUnique id =>
    cases r with
    | error e => exact .inl rfl
    | ok w => cases w <;> exact .inl hp
  | walletUpdate id v inc nv =>
    obtain ⟨_, n, _, lg, md, -, hs, -⟩ := ha
    cases r with
    | error e => exact .inl rfl
    | ok _ => simp only [Local.next, hs]; exact .inl rfl
  | walletRequestUpdate t s =>
    obtain ⟨_, n, lg, -, hs, -⟩ := ha
    cases r with
    | error e => exact .inl rfl
    | ok _ => simp only [Local.next, hs]; exact .inl rfl
  | transactionCreate rows =>
    obtain ⟨_, n, md, -, hs, -⟩ := ha
    cases r with
    | error e => exact .inl rfl
    | ok _ => simp only [Local.next, hs]; exact .inl rfl

/-- A publication that does not fail carries the job of the delivery. -/
theorem Origin.Allows.rabbit_onward {a : Answer} {op} {r} (ha : o.Allows p (.rabbit op))
    (hj : o.job? = some j) (hp : p.stage.busy = true)
    (he : exec (.ok a) i o (.rabbit op) sh = some (sh', r)) :
    Onward j sh' (p.next (.rabbit op) r) := by
  cases he
  cases op with
  | assertQueue q => exact .inl hp
  | ack m => exact .inl hp
  | sendToQueue q data x =>
    cases o with
    | http _ _ => cases hj
    | delivery m =>
      rcases ha with hf | ⟨j', ask, -⟩ | ⟨m', hm, hd, -⟩
      · simp only [Local.next, hf]; exact .inl hp
      · exact ask.elim
      · cases hm
        refine .inr (.inr ⟨_, List.mem_append_right _ (.head _), ?_⟩)
        exact hd.trans (Origin.job?_delivery.mp hj)

/-- A call of a busy delivery leaves it busy, unless it commits the job, hands
it on, is turned away, or the broker fails. -/
theorem Origin.Allows.onward {c : Choice} {op : Op} {r} (ha : o.Allows p op) (hj : o.job? = some j)
    (hp : p.stage.busy = true) (he : exec c i o op sh = some (sh', r))
    (broker : ∀ op', op = .rabbit op' → ∃ a, c = .ok a)
    (retries : ∀ a, c = .ok a → sh.TurnsAway j.txId op → j.txId ∈ sh.committedIds) :
    Onward j sh' (p.next op r) := by
  cases op with
  | redis op => exact ha.redis_onward hj hp he retries
  | prisma op => exact ha.prisma_onward hj hp he retries
  | tx op => exact ha.tx_onward hj hp he
  | rabbit op =>
    obtain ⟨a, rfl⟩ := broker op rfl
    exact ha.rabbit_onward hj hp he
  | library op => exact ha.elim

end
end Pactic
