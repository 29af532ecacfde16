import Pactic.Protocol.Calls
import Pactic.Wallets.Balances

/-! # What other users' requests do to a deposit

Request rows are keyed by txId alone, whoever they belong to, and so is their
cache. A deposit reads the row and the entry of its own txId and nothing else of
what users own; so the requests of other users do not matter to it unless one of
them carries the same txId. -/
namespace Pactic
open Keyed Resumption

/-- The row or the cached row of this txId belongs to another user than `u`. -/
def Shared.Foreign (sh : Shared) (u : Int) (txId : String) : Prop :=
  (∃ r, sh.db.walletRequests.find? txId = some r ∧ r.userId ≠ u) ∨
    ∃ r, sh.redis (.walletRequest txId) = some (.row r) ∧ r.userId ≠ u

/-- The cache entry is derived from what another user than `u` owns. -/
def Shared.ForeignKey (sh : Shared) (u : Int) : CacheKey → Prop
  | .walletRequest txId => sh.Foreign u txId
  | .userWallets v | .userTransactions v | .userProfile v => v ≠ u

/-- The states differ in the request rows and the cache entries of other users
than `u` only. -/
structure Shared.Agree (u : Int) (sh sh' : Shared) : Prop where
  rest : { sh' with db.walletRequests := sh.db.walletRequests, redis := sh.redis } = sh
  rows : ∀ r : WalletRequest, r.userId = u →
    (r ∈ sh.db.walletRequests.rows ↔ r ∈ sh'.db.walletRequests.rows)
  cache : ∀ k, sh.redis k = sh'.redis k ∨ sh.ForeignKey u k ∨ sh'.ForeignKey u k

/-- The states agree on the queues and on the row and the entry of one txId. -/
structure Shared.Alike (txId : String) (sh sh' : Shared) : Prop where
  broker : sh'.broker = sh.broker
  row : sh'.db.walletRequests.find? txId = sh.db.walletRequests.find? txId
  cached : sh'.redis (.walletRequest txId) = sh.redis (.walletRequest txId)

/-- The calls that look at the row or the entry of one txId, or publish. -/
def Op.About (txId : String) : Op → Prop
  | .redis (.get k) => k = .walletRequest txId
  | .redis (.set k _) => k = .walletRequest txId
  | .prisma (.walletRequestFindUnique t) => t = txId
  | .rabbit _ => True
  | _ => False

section
variable {sh sh' : Shared} {u : Int} {txId : String}

theorem Shared.Agree.alike (h : sh.Agree u sh') (own : ¬ sh.Foreign u txId)
    (own' : ¬ sh'.Foreign u txId) : sh.Alike txId sh' := by
  have hb := congrArg Shared.broker h.rest
  refine ⟨hb, ?_, ?_⟩
  · have mine {sh₁ : Shared} (own : ¬ sh₁.Foreign u txId) {r} (hr : sh₁.db.walletRequests.find? txId = some r) :
        r.userId = u := by
      by_contra hne
      exact own (.inl ⟨r, hr, hne⟩)
    refine Option.ext fun r => ?_
    constructor
    · intro hr
      have hu := mine own' hr
      rw [Table.find?_eq_some] at hr ⊢
      exact ⟨(h.rows r hu).mpr hr.1, hr.2⟩
    · intro hr
      have hu := mine own hr
      rw [Table.find?_eq_some] at hr ⊢
      exact ⟨(h.rows r hu).mp hr.1, hr.2⟩
  · rcases h.cache (.walletRequest txId) with he | hf | hf
    · exact he.symm
    · exact absurd hf own
    · exact absurd hf own'

theorem service_blind (txId : String) :
    service.Blind (Shared.Alike txId) (Op.About txId) where
  exec {c i o op sh sh'} h hop := by
    have total {op : Op} {x y : Shared × Except Err op.Res} (hx : ∀ a, op.run a i o sh = some x)
        (hy : ∀ a, op.run a i o sh' = some y) (hf : op.fail i sh = sh) (hf' : op.fail i sh' = sh')
        (hr : x.1.Alike txId y.1) (he : x.2 = y.2) :
        Option.Rel (fun x y => x.1.Alike txId y.1 ∧ x.2 = y.2) (exec c i o op sh) (exec c i o op sh') := by
      cases c with
      | ok a =>
        simp only [exec, hx, hy]
        exact .some ⟨hr, he⟩
      | fail =>
        simp only [exec, hf, hf']
        exact .some ⟨h, rfl⟩
      | failAfter a =>
        simp only [exec, hx, hy, Option.map_some]
        exact .some ⟨hr, rfl⟩
    cases op with
    | redis op =>
      cases op with
      | get k =>
        cases hop
        exact total (fun _ => rfl) (fun _ => rfl) rfl rfl h (congrArg Except.ok h.cached.symm)
      | set k v =>
        cases hop
        refine total (fun _ => rfl) (fun _ => rfl) rfl rfl ⟨h.broker, h.row, ?_⟩ rfl
        simp only [RedisOp.run, Function.update_self]
      | del k => exact hop.elim
    | prisma op =>
      cases op with
      | walletRequestFindUnique t =>
        cases hop
        exact total (fun _ => rfl) (fun _ => rfl) rfl rfl h (congrArg Except.ok h.row.symm)
      | _ => exact hop.elim
    | rabbit op =>
      refine total (fun _ => rfl) (fun _ => rfl) rfl rfl ⟨?_, h.row, h.cached⟩ rfl
      simp only [h.broker]
    | _ => exact hop.elim
  env {e sh sh'} h := by
    cases e with
    | expire k =>
      refine .some ⟨h.broker, h.row, ?_⟩
      by_cases hk : k = .walletRequest txId
      · subst hk; simp only [Function.update_self]
      · simp only [Function.update_of_ne (Ne.symm hk), h.cached]
    | tick => exact .some ⟨h.broker, h.row, h.cached⟩
    | requeue m =>
      simp only [service, EnvStep.run, h.broker]
      split
      · exact .some ⟨rfl, h.row, h.cached⟩
      · exact .none
    | redeliver m =>
      simp only [service, EnvStep.run, h.broker]
      split
      · exact .some ⟨rfl, h.row, h.cached⟩
      · exact .none

theorem fundWallet_about (b : FundWalletDto) (tok : Int) :
    (WalletsController.fundWallet b tok).Only (Op.About b.txId) := by
  refine .bind ?_ fun _ => .bind (.perform rfl) fun cached => ?_
  · unfold validateTokenUser
    split <;> trivial
  cases cached with
  | some _ => trivial
  | none =>
    refine .bind (.perform rfl) fun existing => ?_
    cases existing with
    | some _ => exact .bind (.perform rfl) fun _ => trivial
    | none =>
      exact .bind (.tryCatch (.bind (.perform trivial) fun _ => .perform trivial) fun _ => trivial)
        fun _ => trivial

end

theorem start_http (s : State) (tok : Int) (r : Request) : step s (.start (.http tok r)) =
    if r.Valid then some ⟨s.shared, s.threads ++ [⟨.http tok r, r.program tok⟩]⟩ else none := by
  show Option.map _ (if r.Valid then some s.shared else none) = _
  split <;> rfl

/-- What can be seen of a state from outside: what every thread answers or does
next, and the queues. -/
def State.outcome (s : State) : List ServiceThread × Broker := (s.threads, s.shared.broker)

/-- A deposit answers and enqueues the same, whatever requests other users have
made, as long as none of these requests carries its txId. -/
theorem fundWallet_is_not_interfered_with {s s' : State} {b : FundWalletDto} {tok : Int}
    {ls : List Step} (threads : s'.threads = s.threads) (h : s.shared.Agree b.userId s'.shared)
    (own : ¬ s.shared.Foreign b.userId b.txId) (own' : ¬ s'.shared.Foreign b.userId b.txId)
    (hls : ∀ l ∈ ls, Machine.Label.MovesOnly s.threads.length l) :
    (runSteps (.start (.http tok (.fundWallet b)) :: ls) s).map State.outcome =
      (runSteps (.start (.http tok (.fundWallet b)) :: ls) s').map State.outcome := by
  show ((step s (.start (.http tok (.fundWallet b)))).bind (runSteps ls)).map State.outcome =
    ((step s' (.start (.http tok (.fundWallet b)))).bind (runSteps ls)).map State.outcome
  rw [start_http, start_http]
  split
  · let th : ServiceThread := ⟨.http tok (.fundWallet b), Request.program tok (.fundWallet b)⟩
    have twins : Machine.Twins (Shared.Alike b.txId) (Op.About b.txId) s.threads.length
        (⟨s.shared, s.threads ++ [th]⟩ : State) ⟨s'.shared, s'.threads ++ [th]⟩ := by
      refine ⟨h.alike own own', by rw [threads], fun th' hth => ?_⟩
      rw [List.getElem?_concat_length, Option.some.injEq] at hth
      subst hth
      exact fundWallet_about b tok
    have rel : Option.Rel _ (runSteps ls ⟨s.shared, s.threads ++ [th]⟩)
        (runSteps ls ⟨s'.shared, s'.threads ++ [th]⟩) := (service_blind b.txId).runs hls twins
    refine Machine.rel_map rel fun u v huv => ?_
    simp only [State.outcome, huv.threads, huv.shared.broker]
  · rfl

/-- An empty service but for one request row. -/
def State.withRequest (r : WalletRequest) : State :=
  { State.empty with shared.db.walletRequests := ⟨[r], List.nodup_singleton _⟩ }

theorem State.withRequest_agree {r : WalletRequest} {u : Int} (h : r.userId ≠ u) :
    (State.withRequest r).shared.Agree u State.empty.shared := by
  refine ⟨rfl, fun x hx => ⟨fun hr => ?_, fun hr => by cases hr⟩, fun k => .inl rfl⟩
  cases List.mem_singleton.mp hr
  exact absurd hx h

theorem State.withRequest_foreign {r : WalletRequest} {u : Int} {txId : String} (h : r.txId ≠ txId) :
    ¬ (State.withRequest r).shared.Foreign u txId := by
  rintro (⟨x, hx, -⟩ | ⟨x, hx, -⟩)
  · obtain ⟨hmem, hid⟩ := Table.find?_eq_some.mp hx
    cases List.mem_singleton.mp hmem
    exact h hid
  · cases hx

theorem State.empty_foreign {u : Int} {txId : String} : ¬ State.empty.shared.Foreign u txId := by
  rintro (⟨x, hx, -⟩ | ⟨x, hx, -⟩)
  · cases hx
  · cases hx

theorem calls_movesOnly (i n : Nat) : ∀ l ∈ calls i n, Machine.Label.MovesOnly i l := by
  intro l hl
  exact .inl ⟨_, List.eq_of_mem_replicate hl⟩

def depositOfOne : FundWalletDto := ⟨1, 1, "USD", 10, "a"⟩

theorem fundWallet_is_not_interfered_with_other : ∃ t t',
    runSteps (.start (.http 1 (.fundWallet depositOfOne)) :: calls 0 4)
      (State.withRequest ⟨2, "USD", "b", .success⟩) = some t ∧
    runSteps (.start (.http 1 (.fundWallet depositOfOne)) :: calls 0 4) State.empty = some t' ∧
    t.outcome = t'.outcome ∧ t.shared.broker.ready ≠ [] := by
  have h : ((runSteps (.start (.http 1 (.fundWallet depositOfOne)) :: calls 0 4)
      (State.withRequest ⟨2, "USD", "b", .success⟩)).any fun t => t.shared.broker.ready ≠ []) = true := by
    decide +kernel
  obtain ⟨t, ht, hp⟩ := runSteps_any h
  let theirs : WalletRequest := ⟨2, "USD", "b", .success⟩
  have agree : (State.withRequest theirs).shared.Agree depositOfOne.userId State.empty.shared :=
    State.withRequest_agree (by decide)
  have own : ¬ (State.withRequest theirs).shared.Foreign depositOfOne.userId depositOfOne.txId :=
    State.withRequest_foreign (by decide)
  have same := @fundWallet_is_not_interfered_with (State.withRequest theirs) State.empty depositOfOne 1
    (calls 0 4) rfl agree own State.empty_foreign (calls_movesOnly 0 4)
  rw [ht, Option.map_some] at same
  obtain ⟨t', ht', he⟩ := Option.map_eq_some_iff.mp same.symm
  exact ⟨t, t', ht, ht', he.symm, of_decide_eq_true hp⟩

/-- What the request has been answered. -/
def ServiceThread.reply? (th : ServiceThread) : Option Reply :=
  match th.prog with
  | .ret (.ok r) => some r
  | _ => none

/-- A request of user 2 with the same txId rejects the deposit of user 1, and
hands user 1 the row of user 2. -/
theorem deposit_meets_request_of_other :
    let theirs : WalletRequest := ⟨2, "EUR", "a", .success⟩
    (State.withRequest theirs).shared.Agree 1 State.empty.shared ∧
    (∃ t, runSteps (.start (.http 1 (.fundWallet depositOfOne)) :: calls 0 3)
        (State.withRequest theirs) = some t ∧
      t.threads.map ServiceThread.reply? =
        [some (.duplicate "This transaction ID has already been used." (.row theirs))] ∧
      t.shared.broker.ready = []) ∧
    ∃ t, runSteps (.start (.http 1 (.fundWallet depositOfOne)) :: calls 0 4) State.empty = some t ∧
      t.threads.map ServiceThread.reply? =
        [some (.queued "Wallet funding has been queued and is being processed." (.funding depositOfOne))] ∧
      t.shared.broker.ready = [⟨.walletFunding, .job (.funding depositOfOne), none, 0⟩] := by
  refine ⟨State.withRequest_agree (by decide), ?_, ?_⟩
  · have h : ((runSteps (.start (.http 1 (.fundWallet depositOfOne)) :: calls 0 3)
        (State.withRequest ⟨2, "EUR", "a", .success⟩)).any fun t =>
        t.threads.map ServiceThread.reply? = [some (.duplicate
          "This transaction ID has already been used." (.row ⟨2, "EUR", "a", .success⟩))] ∧
        t.shared.broker.ready = []) = true := by decide +kernel
    obtain ⟨t, ht, hp⟩ := runSteps_any h
    exact ⟨t, ht, of_decide_eq_true hp⟩
  · have h : ((runSteps (.start (.http 1 (.fundWallet depositOfOne)) :: calls 0 4) State.empty).any fun t =>
        t.threads.map ServiceThread.reply? = [some (.queued
          "Wallet funding has been queued and is being processed." (.funding depositOfOne))] ∧
        t.shared.broker.ready = [⟨.walletFunding, .job (.funding depositOfOne), none, 0⟩]) = true := by
      decide +kernel
    obtain ⟨t, ht, hp⟩ := runSteps_any h
    exact ⟨t, ht, of_decide_eq_true hp⟩

end Pactic
