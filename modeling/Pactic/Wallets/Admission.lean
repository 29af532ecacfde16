import Pactic.Lib.Solo
import Pactic.Protocol.Handover
import Pactic.Protocol.Requests
import Pactic.Wallets.FailedCreation

/-! # Admission and the cached requests

The endpoints that take a job look its txId up in the cache before they ask the
database. Whoever caches a status there has read or written the row, except for
the catch block of a handler, which does not know whether there is one. -/
namespace Pactic
open Keyed Resumption

inductive Decision where
  | queued | used
  deriving DecidableEq

/-- What a reply says of the txId. -/
def decision? : Except Err Reply → Option Decision
  | .ok (.queued _ _) => some .queued
  | .ok (.duplicate _ _) | .error (.conflict _) => some .used
  | _ => none

/-- The call that takes a job. -/
def Job.admit : Job → Proc Reply
  | funding d => WalletsService.fundWallet d
  | withdrawal d => WalletsService.withdrawFromWallet d
  | transfer d => WalletsService.transferFunds d

/-- Every call is answered. -/
def Op.Answered (i : Nat) (o : Origin) (op : Op) (sh sh' : Shared) (r : Except Err op.Res) : Prop :=
  ∃ a, exec (.ok a) i o op sh = some (sh', r)

/-- A call that is made now decides so. -/
def Shared.Decides (sh : Shared) (i : Nat) (o : Origin) (c : Proc Reply) (d : Decision) : Prop :=
  ∃ sh' r, Solo (Op.Answered i o) c sh sh' r ∧ decision? r = some d

def Shared.withoutRequests (sh : Shared) : Shared :=
  { sh with redis := fun
    | .walletRequest _ => none
    | k => sh.redis k }

/-- Every job is decided on as without the cached requests. -/
def Shared.AdmitsAlike (sh : Shared) : Prop :=
  ∀ i o (j : Job) d, sh.Decides i o j.admit d ↔ sh.withoutRequests.Decides i o j.admit d

/-- No catch block caches the status of a request that has no row. -/
def CatchesRecorded (s : State) (l : Step) : Prop :=
  ∀ i c o txId k, l = .run i c → c ≠ .fail →
    s.threads[i]? = some ⟨o, .call (.redis (.set (.walletRequest txId) (.bare .failed))) k⟩ →
    s.shared.Recorded txId

/-! ## The decision -/

/-- A cached status that rules a job out without a look at the database. -/
def Job.RuledOut : Job → CachedRequest → Prop
  | funding _, _ => True
  | _, v => v.status.final = true

def Shared.Rejects (sh : Shared) (j : Job) : Prop :=
  (∃ v, sh.redis (.walletRequest j.txId) = some v ∧ j.RuledOut v) ∨ sh.Recorded j.txId

section
variable {sh : Shared} {i : Nat} {o : Origin} {d : Decision} {c : Proc Reply}

theorem decides_call {op : Op} {f : op.Res → Proc Reply} {x : Shared} {v : op.Res}
    (h : ∀ a, op.run a i o sh = some (x, .ok v)) :
    sh.Decides i o (call op >>= f) d ↔ x.Decides i o (f v) d := by
  constructor
  · rintro ⟨sh', r, hr, hd⟩
    rcases solo_bind.mp hr with ⟨mid, a, hp, hf⟩ | ⟨e, hp, -⟩
    · obtain ⟨b, hb⟩ := solo_perform.mp hp
      cases (h b).symm.trans hb
      exact ⟨sh', r, hf, hd⟩
    · obtain ⟨b, hb⟩ := solo_perform.mp hp
      cases (h b).symm.trans hb
  · rintro ⟨sh', r, hr, hd⟩
    exact ⟨sh', r, solo_bind.mpr (.inl ⟨x, v, solo_perform.mpr ⟨{}, h {}⟩, hr⟩), hd⟩

theorem decides_pure {a : Reply} : sh.Decides i o (pure a) d ↔ decision? (.ok a) = some d := by
  constructor
  · rintro ⟨sh', r, hr, hd⟩
    obtain ⟨-, rfl⟩ := solo_pure.mp hr
    exact hd
  · intro hd
    exact ⟨sh, _, solo_pure.mpr ⟨rfl, rfl⟩, hd⟩

theorem decides_throw {e : Err} : sh.Decides i o (throw e) d ↔ decision? (.error e) = some d := by
  constructor
  · rintro ⟨sh', r, hr, hd⟩
    obtain ⟨-, rfl⟩ := solo_throw.mp hr
    exact hd
  · intro hd
    exact ⟨sh, _, solo_throw.mpr ⟨rfl, rfl⟩, hd⟩

/-- The two calls of a publication are answered. -/
theorem decides_send {q : Queue} {data : Payload} {n : Option Nat} {a : Reply} :
    sh.Decides i o (do sendToQueue q data n; pure a) d ↔ decision? (.ok a) = some d := by
  constructor
  · rintro ⟨sh', r, hr, hd⟩
    rcases solo_bind.mp hr with ⟨mid, u, -, hf⟩ | ⟨e, hp, -⟩
    · obtain ⟨-, rfl⟩ := solo_pure.mp hf
      exact hd
    · rcases solo_tryCatch.mp hp with ⟨u, -, hu⟩ | ⟨mid, e', -, hf⟩
      · cases hu
      · obtain ⟨-, hf⟩ := solo_pure.mp hf
        cases hf
  · intro hd
    let x : Shared := { sh with broker := (RabbitOp.sendToQueue q data n).run sh.broker }
    have publish : Solo (Op.Answered i o) (do
        call (.rabbit (.assertQueue q))
        call (.rabbit (.sendToQueue q data n))) sh x (.ok ()) :=
      solo_bind.mpr (.inl ⟨sh, (), solo_perform.mpr ⟨{}, rfl⟩, solo_perform.mpr ⟨{}, rfl⟩⟩)
    refine ⟨x, .ok a, solo_bind.mpr (.inl ⟨x, (), ?_, solo_pure.mpr ⟨rfl, rfl⟩⟩), hd⟩
    exact solo_tryCatch.mpr (.inl ⟨(), publish, rfl⟩)

theorem decides_get {k : CacheKey} {f : Option k.Value → Proc Reply} :
    sh.Decides i o (Redis.get k >>= f) d ↔ sh.Decides i o (f (sh.redis k)) d :=
  decides_call fun _ => rfl

theorem decides_findUnique {t : String} {f : Option WalletRequest → Proc Reply} :
    sh.Decides i o (Prisma.walletRequestFindUnique t >>= f) d ↔
      sh.Decides i o (f (sh.db.walletRequests.find? t)) d :=
  decides_call fun _ => rfl

theorem decides_set {k : CacheKey} {v : k.Value} {f : Unit → Proc Reply} :
    sh.Decides i o (Redis.set k v >>= f) d ↔
      ({ sh with redis := Function.update sh.redis k (some v) } : Shared).Decides i o (f ()) d :=
  decides_call fun _ => rfl

/-- The lookups of the three calls: where the cache does not reject, the
database decides. -/
theorem decides_iff (j : Job) : sh.Decides i o j.admit d ↔
    (sh.Rejects j ∧ d = .used) ∨ (¬ sh.Rejects j ∧ d = .queued) := by
  have used (h : sh.Rejects j) : some Decision.used = some d ↔
      (sh.Rejects j ∧ d = .used) ∨ (¬ sh.Rejects j ∧ d = .queued) := by
    simp [h, eq_comm]
  have queued (h : ¬ sh.Rejects j) : some Decision.queued = some d ↔
      (sh.Rejects j ∧ d = .used) ∨ (¬ sh.Rejects j ∧ d = .queued) := by
    simp [h, eq_comm]
  have recorded {r} (h : sh.db.walletRequests.find? j.txId = some r) : sh.Rejects j :=
    .inr (by rw [Shared.Recorded, h]; rfl)
  have unused (hc : ∀ v, sh.redis (.walletRequest j.txId) = some v → ¬ j.RuledOut v)
      (hr : sh.db.walletRequests.find? j.txId = none) : ¬ sh.Rejects j := by
    rintro (⟨v, hv, hf⟩ | h)
    · exact hc v hv hf
    · rw [Shared.Recorded, hr] at h
      cases h
  have enqueue {conflict text : String} (hj : ∀ v, j.RuledOut v ↔ v.status.final = true) :
      sh.Decides i o (WalletsService.enqueueUnlessUsed conflict text j) d ↔
        (sh.Rejects j ∧ d = .used) ∨ (¬ sh.Rejects j ∧ d = .queued) := by
    unfold WalletsService.enqueueUnlessUsed
    rw [decides_get]
    cases hc : (sh.redis (.walletRequest j.txId)).filter
        fun r => r.status = .success ∨ r.status = .failed with
    | some v =>
      obtain ⟨hv, hf⟩ := Option.filter_eq_some_iff.mp hc
      rw [decides_throw]
      exact used (.inl ⟨v, hv, (hj v).mpr (Status.final_iff.mpr (of_decide_eq_true hf))⟩)
    | none =>
      dsimp only
      rw [decides_findUnique]
      cases hr : sh.db.walletRequests.find? j.txId with
      | some r =>
        dsimp only
        rw [decides_set, decides_throw]
        exact used (recorded hr)
      | none =>
        dsimp only
        rw [decides_send]
        refine queued (unused (fun v hv hf => ?_) hr)
        rw [hv, Option.filter_eq_none_iff] at hc
        exact hc v rfl (decide_eq_true (Status.final_iff.mp ((hj v).mp hf)))
  cases j with
  | funding b =>
    show sh.Decides i o (WalletsService.fundWallet b) d ↔ _
    unfold WalletsService.fundWallet
    rw [decides_get]
    cases hc : sh.redis (.walletRequest b.txId) with
    | some v =>
      dsimp only
      rw [decides_pure]
      exact used (.inl ⟨v, hc, trivial⟩)
    | none =>
      dsimp only
      rw [decides_findUnique]
      cases hr : sh.db.walletRequests.find? b.txId with
      | some r =>
        dsimp only
        rw [decides_set, decides_pure]
        exact used (recorded hr)
      | none =>
        dsimp only
        rw [decides_send]
        refine queued (unused (fun v hv _ => ?_) hr)
        replace hv : sh.redis (.walletRequest b.txId) = some v := hv
        rw [hc] at hv
        cases hv
  | withdrawal b => exact enqueue fun _ => Iff.rfl
  | transfer b => exact enqueue fun _ => Iff.rfl

/-- The cache does not matter exactly if whatever is cached is recorded. -/
theorem admitsAlike_iff : sh.AdmitsAlike ↔
    ∀ t v, sh.redis (.walletRequest t) = some v → sh.Recorded t := by
  have without (j : Job) : sh.withoutRequests.Rejects j ↔ sh.Recorded j.txId := by
    refine ⟨fun h => h.resolve_left ?_, .inr⟩
    rintro ⟨v, hv, -⟩
    cases hv
  constructor
  · intro h t v hv
    have alike := h 0 (.http 0 (.getUserWallets 0)) (.funding ⟨0, 0, "", 0, t⟩) .used
    rw [decides_iff, decides_iff, without] at alike
    have rejects : sh.Rejects (.funding ⟨0, 0, "", 0, t⟩) := .inl ⟨v, hv, trivial⟩
    have recorded : sh.Recorded (Job.funding ⟨0, 0, "", 0, t⟩).txId := by simpa [rejects] using alike
    exact recorded
  · intro h i o j d
    have same : sh.Rejects j ↔ sh.withoutRequests.Rejects j := by
      rw [without]
      refine ⟨fun hr => ?_, .inr⟩
      rcases hr with ⟨v, hv, -⟩ | hr
      · exact h _ v hv
      · exact hr
    rw [decides_iff, decides_iff, same]

end

/-! ## What is known to be recorded -/

/-- A job that is committed has its row. -/
def DoneRecorded (sh : Shared) (g : Threads) : Prop :=
  ∀ {i t}, Standing Origin.job? (fun st => st = .committed) g i t → sh.Recorded t

section
variable {sh sh' : Shared} {i : Nat} {o : Origin} {p : Local}

theorem Local.next_committed {op : Op} {r} (h : (p.next op r).stage = .committed) :
    p.stage = .committed ∨ op = .tx .commit := by
  by_contra hn
  obtain ⟨hp, hop⟩ := not_or.mp hn
  unfold Local.next at h
  split at h <;> try split at h
  all_goals first
    | exact hp h
    | exact hop rfl
    | cases h

theorem doneRecorded_stable (C : State → Step → Prop) :
    Machine.Stable service protocol Origin.first C (fun sh g => True ∧ Owned sh g) DoneRecorded where
  start s o sh g i _ _ _ h hg ha := by
    intro k t hs
    rcases hs.of_update with ⟨-, j, -, -, hl⟩ | ⟨-, hs⟩
    · cases of_decide_eq_true hl
    · rw [Shared.Recorded, (Origin.accept_same ha).walletRequests]
      exact h hs
  run s i o op k c sh r g p _ _ hk h hg allowed he := by
    have move := exec_move allowed he
    intro m t hs
    rcases hs.of_update with ⟨-, j, hj, rfl, hl⟩ | ⟨-, hs⟩
    · rcases Local.next_committed (of_decide_eq_true hl) with hp | rfl
      · exact move.recorded (h ⟨o, p, j, hg, hj, rfl, decide_eq_true hp⟩)
      · obtain ⟨j', hj', session⟩ := allowed
        rw [hj] at hj'
        cases hj'
        exact move.recorded (hk.2.row ⟨o, p, j, hg, hj, rfl, by rw [session]; rfl⟩)
    · exact move.recorded (h hs)
  env s e sh g _ _ h he := by
    intro k t hs
    rw [Shared.Recorded, (EnvStep.run_same he).walletRequests]
    exact h hs
  kill s i g _ _ h := h

end

/-! ## The lookups of the endpoints -/

/-- The request whose status the call caches. -/
def Op.cachesRequest? : Op → Option String
  | .redis (.set (.walletRequest t) _) => some t
  | _ => none

/-- The requests whose rows a thread has read or inserted. -/
def readsRow : List String → (o : Op) → Except Err o.Res → List String
  | known, .prisma (.walletRequestFindUnique t), .ok (some _) => t :: known
  | known, .prisma (.walletRequestCreate r), .ok _ => r.txId :: known
  | known, _, _ => known

/-- An endpoint caches the status of a row that it knows. -/
def lookups (o : Origin) : Monitor Op Op.Res Err (List String) :=
  ⟨fun known op => o.job? = none → ∀ t, op.cachesRequest? = some t → t ∈ known, readsRow⟩

def Looked (_ : Origin) (_ : Except Err Reply) (_ : List String) : Prop := True

section
variable {o : Origin} {known : List String} {α : Type}

/-- A program that caches no status. -/
abbrev CachesNone (c : Proc α) : Prop := c.Only fun op => op.cachesRequest? = none

theorem CachesNone.looks {c : Proc α} (h : CachesNone c) : (lookups o).wp c (fun _ _ => True) known :=
  Monitor.wp_of_keeps _ (I := fun _ => True)
    (fun _ _ _ hop => ⟨fun _ t ht => (by rw [hop] at ht; cases ht), fun _ => trivial⟩) h trivial

theorem publish_cachesNone (q data n) : CachesNone (sendToQueue q data n) :=
  .tryCatch (.bind (.perform rfl) fun _ => .perform rfl) fun _ => trivial

theorem enqueue_cachesNone (q data n) (a : α) : CachesNone (do sendToQueue q data n; pure a) :=
  .bind (publish_cachesNone q data n) fun _ => trivial

/-- A lookup is always in order. -/
theorem looks_call {op : Op} {f : op.Res → Proc α} (hop : op.cachesRequest? = none)
    (h : ∀ a, (lookups o).wp (f a) (fun _ _ => True) (readsRow known op (.ok a))) :
    (lookups o).wp (call op >>= f) (fun _ _ => True) known :=
  (Monitor.wp_perform_bind _ _ _ _ _).mpr
    ⟨fun _ t ht => (by rw [hop] at ht; cases ht), h, fun _ => trivial⟩

/-- A status is cached where the row is known. -/
theorem looks_set {t : String} {v : CachedRequest} {f : Unit → Proc α} (hk : t ∈ known)
    (h : CachesNone (f ())) :
    (lookups o).wp (Redis.set (.walletRequest t) v >>= f) (fun _ _ => True) known := by
  refine (Monitor.wp_perform_bind _ _ _ _ _).mpr ⟨fun _ t' ht => ?_, fun _ => h.looks, fun _ => trivial⟩
  cases ht
  exact hk

theorem insertWallet_looks (u cur t) :
    (lookups o).wp (WalletsService.insertWallet u cur t) (fun _ _ => True) known := by
  refine looks_call rfl fun w => looks_call rfl fun row => looks_set (.head _) ?_
  refine .bind (publish_cachesNone _ _ _) fun _ => .bind (.bind (.perform rfl) fun cached => ?_)
    fun _ => trivial
  cases cached with
  | none => trivial
  | some _ => exact .perform rfl

theorem createWallet_looks (u cur t) :
    (lookups o).wp (WalletsService.createWallet u cur t) (fun _ _ => True) known := by
  refine looks_call rfl fun cached => ?_
  cases cached.filter fun r => r.status = .success with
  | some _ => trivial
  | none =>
    refine looks_call rfl fun existing => ?_
    unfold WalletsService.createUnlessRecorded
    cases hf : existing.filter fun r => r.status = .success with
    | some r =>
      obtain ⟨he, -⟩ := Option.filter_eq_some_iff.mp hf
      subst he
      exact looks_set (.head _) trivial
    | none =>
      refine looks_call rfl fun first => ?_
      cases first with
      | some _ => trivial
      | none => exact insertWallet_looks u cur t

theorem enqueueUnlessUsed_looks (conflict text : String) (j : Job) :
    (lookups o).wp (WalletsService.enqueueUnlessUsed conflict text j) (fun _ _ => True) known := by
  refine looks_call rfl fun cached => ?_
  cases cached.filter fun r => r.status = .success ∨ r.status = .failed with
  | some _ => trivial
  | none =>
    refine looks_call rfl fun existing => ?_
    cases existing with
    | some r => exact looks_set (.head _) trivial
    | none => exact (enqueue_cachesNone _ _ _ _).looks

theorem fundWallet_looks (b : FundWalletDto) :
    (lookups o).wp (WalletsService.fundWallet b) (fun _ _ => True) known := by
  refine looks_call rfl fun cached => ?_
  cases cached with
  | some _ => trivial
  | none =>
    refine looks_call rfl fun existing => ?_
    cases existing with
    | some r => exact looks_set (.head _) trivial
    | none => exact (enqueue_cachesNone _ _ _ _).looks

theorem getUserWallets_cachesNone (u : Int) : CachesNone (WalletsService.getUserWallets u) := by
  refine .bind (.perform rfl) fun cached => ?_
  cases cached with
  | some _ => trivial
  | none => exact .bind (.perform rfl) fun _ => .bind (.perform rfl) fun _ => trivial

/-- The controller checks the token first. -/
theorem validated_looks {u tok : Int} {c : Proc α} (h : (lookups o).wp c (fun _ _ => True) known) :
    (lookups o).wp (do validateTokenUser u tok; c) (fun _ _ => True) known := by
  refine (Monitor.wp_bind _ _ _ _ _).mpr ?_
  unfold validateTokenUser
  split
  · trivial
  · exact h

theorem request_looks {r : Request} (hr : r.ofWallets = true) (tok : Int) :
    (lookups o).wp (r.program tok) (fun _ _ => True) known := by
  have answer {β : Type} {c : Proc β} {f : β → Reply} (h : (lookups o).wp c (fun _ _ => True) known) :
      (lookups o).wp (do let a ← c; pure (f a)) (fun _ _ => True) known := by
    refine (Monitor.wp_bind _ _ _ _ _).mpr (Monitor.wp_mono _ h fun r q _ => ?_)
    cases r with
    | ok _ => trivial
    | error _ => trivial
  cases r with
  | createWallet b => exact validated_looks (answer (createWallet_looks _ _ _))
  | fundWallet b => exact validated_looks (fundWallet_looks b)
  | getUserWallets u => exact validated_looks (answer (getUserWallets_cachesNone u).looks)
  | withdrawFromWallet b => exact validated_looks (enqueueUnlessUsed_looks _ _ _)
  | transferFunds b => exact validated_looks (enqueueUnlessUsed_looks _ _ _)
  | _ => cases hr

/-- A delivery of a notification or of a login log. -/
theorem delivery_cachesNone {m : Message} {c : Proc Unit} (hc : deliver m = some c)
    (hj : (Origin.delivery m).job? = none) : CachesNone c := by
  have callback {handler : Proc Unit} (q : Queue) (h : CachesNone handler) :
      CachesNone (consume q handler m) := by
    refine .tryCatch h fun _ => ?_
    split
    · exact .bind (publish_cachesNone _ _ _) fun _ => .perform rfl
    · exact .bind (publish_cachesNone _ _ _) fun _ => .perform rfl
  have job {j} (hd : m.data = .job j) : CachesNone c := by
    rw [Origin.job?_delivery.mpr hd] at hj
    cases hj
  unfold deliver at hc
  split at hc
  · exact job ‹_›
  · exact job ‹_›
  · exact job ‹_›
  · cases hc
    refine callback _ ?_
    unfold notificationHandler
    split
    · trivial
    · exact .tryCatch (.perform rfl) fun _ => trivial
  · cases hc
    exact callback _ (.perform rfl)
  · cases hc

theorem service_looks {C : State → Step → Prop} (hC : ∀ s l, C s l → WalletRun s l) :
    Machine.Obeys service lookups Looked (fun _ => []) C := by
  intro s o sh hc ha
  cases hj : o.job? with
  | some j =>
    refine Monitor.wp_of_allow _ (fun _ _ hn => ?_) _ _
    rw [hj] at hn
    cases hn
  | none =>
    cases o with
    | http tok r => exact request_looks (hC _ _ hc) tok
    | delivery m =>
      obtain ⟨c, hc, program⟩ := Origin.program_delivery (Origin.accept_delivery ha).2.1
      have none : CachesNone (do c; pure .done : Proc Reply) :=
        .bind (delivery_cachesNone hc hj) fun _ => trivial
      rw [← program] at none
      exact none.looks

end

/-! ## The invariant -/

/-- Whatever is cached or known to a thread is recorded. -/
structure CacheRecorded (sh : Shared) (g : Machine.Ghost Origin (List String)) : Prop where
  cached : ∀ t v, sh.redis (.walletRequest t) = some v → sh.Recorded t
  known : ∀ i o known, g i = some (o, known) → ∀ t ∈ known, sh.Recorded t

/-- What the protocol knows of the rows. -/
def State.KnowsRows (s : State) : Prop :=
  ∃ g, Machine.Tracks .crashed protocol Ends s.threads g ∧ DoneRecorded s.shared g

section
variable {s t u : State} {l : Step} {sh sh' : Shared} {i : Nat} {o : Origin} {c : Choice}
  {g g' : Machine.Ghost Origin (List String)}

/-- What a thread learns of is recorded. -/
theorem readsRow_recorded {known : List String} {op : Op} {r}
    (he : exec c i o op sh = some (sh', r)) (hk : ∀ t ∈ known, sh'.Recorded t) :
    ∀ t ∈ readsRow known op r, sh'.Recorded t := by
  intro t ht
  unfold readsRow at ht
  split at ht
  · next t' row =>
    rcases List.mem_cons.mp ht with rfl | ht
    · rcases exec_answer he with ⟨a, -, hrun⟩ | hr
      · simp only [Op.run, PrismaOp.run, Option.some.injEq, Prod.mk.injEq, Except.ok.injEq] at hrun
        obtain ⟨rfl, hr⟩ := hrun
        rw [Shared.Recorded, hr]
        rfl
      · cases hr
    · exact hk t ht
  · next row row' =>
    rcases List.mem_cons.mp ht with rfl | ht
    · rcases exec_answer he with ⟨a, -, hrun⟩ | hr
      · simp only [Op.run, PrismaOp.run] at hrun
        split at hrun
        · next ins =>
          cases hrun
          simp [Shared.Recorded, Shared.note, Table.find?_of_insert? ins]
        · cases hrun
      · cases hr
    · exact hk t ht
  · exact hk t ht

/-- A call that leaves rows, cache and knowledge in order. -/
theorem CacheRecorded.run {op : Op} {k : Except Err op.Res → Proc Reply} {r} {known : List String}
    {gp : Threads} {p : Local} (h : CacheRecorded s.shared g) (hc : CatchesRecorded s (.run i c))
    (hi : s.threads[i]? = some ⟨o, .call op k⟩) (hg : g i = some (o, known))
    (hl : (lookups o).allow known op) (done : DoneRecorded s.shared gp) (hgp : gp i = some (o, p))
    (allowed : o.Allows p op) (he : exec c i o op s.shared = some (sh, r)) :
    CacheRecorded sh (Function.update g i (some (o, readsRow known op r))) := by
  have move := exec_move allowed he
  constructor
  · intro t v hv
    rcases exec_redis he with hr | ⟨op', rfl, hne, hr⟩
    · exact move.recorded (h.cached t v (hr ▸ hv))
    · rw [hr] at hv
      cases op' with
      | get key => exact move.recorded (h.cached t v hv)
      | del key =>
        simp only [RedisOp.run] at hv
        by_cases hk : CacheKey.walletRequest t = key
        · subst hk
          rw [Function.update_self] at hv
          cases hv
        · rw [Function.update_of_ne hk] at hv
          exact move.recorded (h.cached t v hv)
      | set key value =>
        simp only [RedisOp.run] at hv
        by_cases hk : CacheKey.walletRequest t = key
        · subst hk
          refine move.recorded ?_
          cases hj : o.job? with
          | none => exact h.known i o known hg t (hl hj t rfl)
          | some j =>
            obtain ⟨j', hj', rfl, hv⟩ := allowed.resolve_left (by rw [hj]; simp)
            rw [hj] at hj'
            cases hj'
            rcases hv with rfl | ⟨rfl, stage⟩
            · exact hc i c o j.txId k rfl hne hi
            · exact done ⟨o, p, j, hgp, hj, rfl, decide_eq_true stage⟩
        · rw [Function.update_of_ne hk] at hv
          exact move.recorded (h.cached t v hv)
  · intro m o' known' hm t ht
    by_cases him : m = i
    · subst him
      rw [Function.update_self] at hm
      cases hm
      exact readsRow_recorded he (fun t ht => move.recorded (h.known m o known hg t ht)) t ht
    · rw [Function.update_of_ne him] at hm
      exact move.recorded (h.known m o' known' hm t ht)

theorem CacheRecorded.step (h : CacheRecorded s.shared g) (hc : CatchesRecorded s l)
    (known : s.KnowsRows)
    (hf : Machine.Follows service .crashed lookups (fun _ => []) s g l t g') :
    CacheRecorded t.shared g' := by
  have same {sh : Shared} (hb : s.shared.SameBooks sh)
      (hr : ∀ k v, sh.redis k = some v → s.shared.redis k = some v) : CacheRecorded sh g := by
    have rows {t} (ht : s.shared.Recorded t) : sh.Recorded t := by
      rw [Shared.Recorded, hb.walletRequests]
      exact ht
    exact ⟨fun t v hv => rows (h.cached t v (hr _ v hv)),
      fun i o k hg t ht => rows (h.known i o k hg t ht)⟩
  cases hf with
  | @start o sh ha hnone =>
    have accepted := same (Origin.accept_same ha) fun k v hv => by
      rwa [accept_redis ha] at hv
    refine ⟨accepted.cached, fun i o' k hg t ht => ?_⟩
    by_cases hi : i = s.threads.length
    · subst hi
      rw [Function.update_self] at hg
      cases hg
      cases ht
    · rw [Function.update_of_ne hi] at hg
      exact accepted.known i o' k hg t ht
  | run hi hg allowed he =>
    obtain ⟨gp, htp, done⟩ := known
    obtain ⟨p, hgp, hp, -⟩ := htp.called hi
    exact h.run hc hi hg allowed done hgp hp he
  | env he => exact same (EnvStep.run_same he) fun k v hv => env_redis he hv
  | kill hi hg => exact ⟨h.cached, h.known⟩

theorem Reach.knowsRows {C : State → Step → Prop} (hC : ∀ s l, C s l → WalletRun s l) (hq : Quiet s)
    (h : Reach C s t) : t.KnowsRows := by
  have start : DoneRecorded s.shared noThreads := by
    rintro i t ⟨o, p, j, hg, -⟩
    cases hg
  obtain ⟨g, ht, -, done⟩ := ((owned_keeps C _).stable.and (doneRecorded_stable C)).invariant
    (service_obeys hC) hq.tracks ⟨hq.owned, start⟩ h
  exact ⟨g, ht, done⟩

/-- Where every catch block caches statuses of recorded requests only, the cached
requests do not matter to what is admitted; and a step to a state where they do
not is one that keeps to this. -/
theorem admission_ignores_cache_iff (hq : Quiet s) (hs : s.shared.AdmitsAlike)
    (h : Reach (fun s l => WalletRun s l ∧ CatchesRecorded s l) s t) :
    t.shared.AdmitsAlike ∧ ∀ l u, WalletRun t l → step t l = some u →
      (u.shared.AdmitsAlike ↔ CatchesRecorded t l) := by
  have alike {v : State} (hv : Reach (fun s l => WalletRun s l ∧ CatchesRecorded s l) s v) :
      v.shared.AdmitsAlike := by
    have start : CacheRecorded s.shared fun _ => none := by
      refine ⟨admitsAlike_iff.mp hs, fun i o k hg => ?_⟩
      cases hg
    have knowing := Machine.Reach.knowing (P := State.KnowsRows)
      (fun _ hu => Reach.knowsRows (fun _ _ hc => hc.1) hq hu) hv
    obtain ⟨g, -, recorded⟩ := Machine.Tracks.invariant (I := fun u g => CacheRecorded u.shared g)
      (service_looks fun _ _ hc => hc.1.1) (.of_nil hq.threads) start
      (fun u g l w g' hc _ hI hf => CacheRecorded.step hI hc.1.2 hc.2 hf) knowing
    exact admitsAlike_iff.mpr recorded.cached
  refine ⟨alike h, fun l u hw hu => ⟨fun after => ?_, fun hc => alike (h.tail ⟨hw, hc⟩ hu)⟩⟩
  intro i c o txId k hl hne hi
  subst hl
  obtain ⟨sh, r, he, rfl⟩ := (Machine.step_run hi).mp hu
  have effect : sh = { t.shared with
      redis := Function.update t.shared.redis (.walletRequest txId) (some (.bare .failed)) } := by
    cases c with
    | ok a => exact (congrArg Prod.fst (Option.some.inj he)).symm
    | fail => exact absurd rfl hne
    | failAfter a => exact (congrArg Prod.fst (Option.some.inj he)).symm
  subst effect
  exact admitsAlike_iff.mp after txId (.bare .failed) (Function.update_self ..)

end
/-- The request whose status the thread is about to cache as failed. -/
def ServiceThread.marks? (th : ServiceThread) : Option String :=
  match th.prog with
  | .call (.redis (.set (.walletRequest t) (.bare .failed))) _ => some t
  | _ => none

def catchesRecorded (s : State) (l : Step) : Bool :=
  l.ofWallets && match l with
    | .run i _ => s.threads[i]?.all fun th =>
        (ServiceThread.marks? th).all fun t => (s.shared.db.walletRequests.find? t).isSome
    | _ => true

theorem catchesRecorded_sound {s : State} {l : Step} (h : catchesRecorded s l = true) :
    WalletRun s l ∧ CatchesRecorded s l := by
  obtain ⟨hw, h⟩ := (Bool.and_eq_true _ _).mp h
  refine ⟨hw, fun i c o txId k hl _ hi => ?_⟩
  subst hl
  simp only [hi, Option.all_some] at h
  exact h

theorem State.empty_admitsAlike : State.empty.shared.AdmitsAlike :=
  admitsAlike_iff.mpr fun _ _ hv => by cases hv

/-- The failed deposit has its row, so its cached status rejects nothing else. -/
theorem admission_ignores_cache_failed : ∃ t, Reach WalletRun State.empty t ∧
    (t.shared.redis (.walletRequest "a")).isSome ∧ t.shared.AdmitsAlike := by
  have h : (service.runsIf .crashed catchesRecorded failedDepositRun State.empty).any
      (fun t => (t.shared.redis (.walletRequest "a")).isSome) = true := by decide +kernel
  obtain ⟨t, ht, cached⟩ := Option.any_eq_true _ _ |>.mp h
  have reach := Machine.reach_of_runsIf (fun _ _ => catchesRecorded_sound) ht
  exact ⟨t, reach.mono fun _ _ hc => hc.1, cached,
    (admission_ignores_cache_iff State.empty_quiet State.empty_admitsAlike reach).1⟩

/-- The pre-log of a deposit fails: there is no row, and the catch block caches
a failure. -/
def unloggedDepositRun : List Step :=
  .start (.http 1 (.fundWallet failedDeposit)) :: calls 0 4 ++
    .start (.delivery failedDepositMessage) :: calls 1 1 ++ .run 1 .fail :: calls 1 2

theorem cached_failure_rejects_unused : ∃ t, Reach WalletRun State.empty t ∧
    ¬ t.shared.Recorded "a" ∧ ¬ t.shared.AdmitsAlike := by
  have h : ((runSteps unloggedDepositRun State.empty).any fun t =>
      (t.shared.redis (.walletRequest "a")).isSome &&
        (t.shared.db.walletRequests.find? "a").isNone) = true := by decide +kernel
  obtain ⟨t, ht, hp⟩ := runSteps_any h
  obtain ⟨cached, unrecorded⟩ := (Bool.and_eq_true _ _).mp hp
  obtain ⟨v, hv⟩ := Option.isSome_iff_exists.mp cached
  have none : ¬ t.shared.Recorded "a" := by
    rw [Shared.Recorded, Option.isNone_iff_eq_none.mp unrecorded]
    simp
  exact ⟨t, reach_of_runSteps rfl ht, none, fun alike => none (admitsAlike_iff.mp alike "a" v hv)⟩

end Pactic
