import Pactic.Book.Money
import Pactic.Wallets.DepositPath

/-! # Concurrent deposits

Any number of deposits into one wallet are in the queue and their handlers run
in any order. While no update finds its version gone every handler keeps to the
path of a deposit, whatever the others do, and the balance does not depend on
the order. -/
namespace Pactic
open FixedPoint Keyed Resumption

/-- Deposits alone are delivered and all calls are answered, a read in a session
with a version of its wallet. Entries may expire, the clock goes on. -/
structure DepositRun (s : State) (l : Step) : Prop where
  starts : ∀ o, l = .start o → ∃ m, o = .delivery m ∧ m.queue = .walletFunding
  answers : ∀ i c, l = .run i c → ∃ a, c = .ok a ∧
    ∀ o op k, s.threads[i]? = some ⟨o, .call op k⟩ → op.Readable a s.shared
  lives : ∀ i, l ≠ .kill i
  env : ∀ e, l = .env e → (∃ k, e = .expire k) ∨ e = .tick

/-- No update finds that another deposit has been committed since its read. -/
def Unbeaten (s : State) (l : Step) : Prop :=
  ∀ i c o op k, l = .run i c → s.threads[i]? = some ⟨o, .call op k⟩ → op.Unbeaten s.shared

/-- The jobs of the threads and of the messages that wait. -/
def State.jobs (s : State) : List (Option Job) :=
  s.threads.map (·.origin.job?) ++ s.shared.fundings.map fun m => (Origin.delivery m).job?

/-- Valid deposits into the wallet wait in the queue of an idle service, none of
their txIds was used before and no two are the same. -/
structure State.Awaits (s : State) (w : Wallet) (ds : List FundWalletDto) : Prop where
  quiet : Quiet s
  wallet : s.shared.db.wallets.find? w.id = some w
  into : ∀ d ∈ ds, d.Into w
  distinct : (ds.map FundWalletDto.txId).Nodup
  unused : ∀ d ∈ ds, s.shared.redis (.walletRequest d.txId) = none ∧ ¬ s.shared.Recorded d.txId ∧
    s.shared.Unbooked d.txId
  queued : s.jobs.Perm (ds.map fun d => some (.funding d))

/-- Every handler is done, and so are the retries. -/
def State.Drained (s : State) : Prop := s.idle = true ∧ s.shared.fundings = []

/-- The path of the deposit the thread works on. -/
def payment (o : Origin) : Monitor Op Op.Res Err Progress := match o.job? with
  | some (.funding d) => depositPath d
  | _ => ⟨fun _ _ => True, fun _ _ _ => .failed⟩

def Settling (_ : Origin) : Except Err Reply → Progress → Prop := Comes .paid fun _ => True

theorem payment_of_job {o : Origin} {d : FundWalletDto} (h : o.job? = some (.funding d)) :
    payment o = depositPath d := by
  simp only [payment, h]

theorem program_pays {m : Message} (hq : m.queue = .walletFunding) (hd : (deliver m).isSome) :
    ∃ d, m.data = .job (.funding d) ∧
      (payment (.delivery m)).wp (Origin.delivery m).program (Settling (.delivery m)) .looking := by
  obtain ⟨d, data⟩ : ∃ d, m.data = .job (.funding d) := by
    cases data : m.data with
    | job j =>
      cases j with
      | funding d => exact ⟨d, rfl⟩
      | _ => simp [deliver, hq, data] at hd
    | _ => simp [deliver, hq, data] at hd
  have job : (Origin.delivery m).job? = some (.funding d) := by simp only [Origin.job?, data]
  exact ⟨d, data, payment_of_job job ▸ delivery_comes hq data⟩

theorem service_pays : Machine.Obeys service payment Settling (fun _ => .looking) DepositRun := by
  intro s o sh hc ha
  obtain ⟨m, rfl, hq⟩ := hc.starts o rfl
  obtain ⟨d, -, paid⟩ := program_pays hq (Origin.accept_delivery ha).2.1
  exact paid

section
variable {w : Wallet} {ds : List FundWalletDto} {s t u : State} {l : Step}
  {g g' : Nat → Option (Origin × Progress)}

/-- Every thread stands firm on the path of its deposit, and the deposits that
wait can be started. -/
structure Working (w : Wallet) (ds : List FundWalletDto) (s : State)
    (g : Nat → Option (Origin × Progress)) : Prop where
  jobs : s.jobs.Perm (ds.map fun d => some (.funding d))
  stands : ∀ {i o p d}, g i = some (o, p) → o.job? = some (.funding d) → p.Stands d w i s.shared
  waits : ∀ m ∈ s.shared.fundings, ∀ d, m.data = .job (.funding d) →
    ∀ i, Progress.looking.Stands d w i s.shared
  wallet : ∀ d ∈ ds, s.shared.Open w
  ended : ∀ {i o r p}, s.threads[i]? = some ⟨o, .ret r⟩ → g i = some (o, p) → p = .failed ∨ p = .paid
  journal : ∀ e ∈ s.shared.journal, (∃ t, e.event = .requestCreated t) ∨
    ∃ d ∈ ds, e.event = .committed (.funding d)

/-- The txIds of the jobs in work and in the queue. -/
theorem jobs_nodup (h : s.jobs.Perm (ds.map fun d => some (.funding d)))
    (hn : (ds.map FundWalletDto.txId).Nodup) : (s.jobs.map (·.map Job.txId)).Nodup := by
  have ids : (ds.map fun d => some (Job.funding d)).map (·.map Job.txId) =
      (ds.map FundWalletDto.txId).map some := by
    simp only [List.map_map]
    rfl
  rw [(h.map _).nodup_iff, ids]
  exact hn.map (Option.some_injective _)

/-- Two threads work on different deposits. -/
theorem txId_ne_of_threads {i k : Nat} {o o' : Origin} {q q' : Proc Reply} {j j' : Job}
    (h : (s.jobs.map (·.map Job.txId)).Nodup) (hi : s.threads[i]? = some ⟨o, q⟩)
    (hk : s.threads[k]? = some ⟨o', q'⟩) (hj : o.job? = some j) (hj' : o'.job? = some j') (hne : k ≠ i) :
    j'.txId ≠ j.txId := by
  intro he
  rw [State.jobs, List.map_append, List.nodup_append] at h
  have at_ {n : Nat} {o : Origin} {q : Proc Reply} {j : Job} (hn : s.threads[n]? = some ⟨o, q⟩)
      (hj : o.job? = some j) :
      ((s.threads.map (·.origin.job?)).map (·.map Job.txId))[n]? = some (some j.txId) := by
    simp only [List.getElem?_map, hn, Option.map_some, hj]
  have hlt : k < ((s.threads.map (·.origin.job?)).map (·.map Job.txId)).length := by
    rw [List.length_map, List.length_map]
    exact (List.getElem?_eq_some_iff.mp hk).1
  refine hne ((List.getElem?_inj hlt h.1).mp ?_)
  rw [at_ hk hj', at_ hi hj, he]

/-- A thread works on no deposit that still waits. -/
theorem txId_ne_of_waiting {i : Nat} {o : Origin} {q : Proc Reply} {j j' : Job} {m : Message}
    (h : (s.jobs.map (·.map Job.txId)).Nodup) (hi : s.threads[i]? = some ⟨o, q⟩) (hj : o.job? = some j)
    (hm : m ∈ s.shared.fundings) (hd : m.data = .job j') : j'.txId ≠ j.txId := by
  intro he
  rw [State.jobs, List.map_append, List.nodup_append] at h
  refine h.2.2 (some j.txId) ?_ (some j'.txId) ?_ (by rw [he])
  · rw [List.map_map]
    refine List.mem_map.mpr ⟨_, List.mem_of_getElem? hi, ?_⟩
    simp only [Function.comp_apply, hj, Option.map_some]
  · rw [List.map_map]
    refine List.mem_map.mpr ⟨m, hm, ?_⟩
    simp only [Function.comp_apply, Origin.job?, hd, Option.map_some]

theorem Working.job {i : Nat} {o : Origin} {q : Proc Reply} (h : Working w ds s g)
    (hi : s.threads[i]? = some ⟨o, q⟩) : ∃ d ∈ ds, o.job? = some (.funding d) := by
  have mem : o.job? ∈ s.jobs :=
    List.mem_append_left _ (List.mem_map.mpr ⟨_, List.mem_of_getElem? hi, rfl⟩)
  obtain ⟨d, hd, he⟩ := List.mem_map.mp (h.jobs.mem_iff.mp mem)
  exact ⟨d, hd, he.symm⟩

/-- What happens elsewhere leaves the deposits where they are. -/
theorem Working.same {sh : Shared} (h : Working w ds s g) (hw : sh.db.wallets = s.shared.db.wallets)
    (spares : ∀ i x, s.shared.Spares i x sh) (hq : sh.fundings = s.shared.fundings)
    (hj : sh.journal = s.shared.journal) : Working w ds ⟨sh, s.threads⟩ g where
  jobs := by rw [State.jobs, hq]; exact h.jobs
  stands hg hd := (h.stands hg hd).spared rfl (spares _ _)
  waits m hm d hd i := (h.waits m (hq ▸ hm) d hd i).spared rfl (spares _ _)
  wallet d hd := by rw [Shared.Open, hw]; exact h.wallet d hd
  ended := h.ended
  journal := by rw [hj]; exact h.journal

theorem Working.env {e : EnvStep} {sh : Shared} (h : Working w ds s g) (he : e.run s.shared = some sh)
    (hc : (∃ k, e = .expire k) ∨ e = .tick) : Working w ds ⟨sh, s.threads⟩ g := by
  rcases hc with ⟨k, rfl⟩ | rfl
  · cases he
    refine h.same rfl (fun i x => ⟨fun hn => ?_, .rfl, id, rfl, fun _ => id⟩) rfl rfl
    by_cases hk : CacheKey.walletRequest x = k
    · rw [hk]
      exact Function.update_self _ _ _
    · exact (Function.update_of_ne hk _ _).trans hn
  · cases he
    exact h.same rfl (fun i x => ⟨id, .rfl, id, rfl, fun _ => id⟩) rfl rfl

/-- A message is taken out of the queue and its deposit is under way. -/
theorem Working.start {m : Message} {sh : Shared} (h : Working w ds s g)
    (hq : m.queue = .walletFunding) (ha : (Origin.delivery m).accept s.shared = some sh) :
    Working w ds ⟨sh, s.threads ++ [⟨.delivery m, (Origin.delivery m).program⟩]⟩
      (Function.update g s.threads.length (some (.delivery m, .looking))) := by
  obtain ⟨ready, consumed, rfl⟩ := Origin.accept_delivery ha
  obtain ⟨d, data, pays⟩ := program_pays hq consumed
  have waiting : m ∈ s.shared.fundings := List.mem_filter.mpr ⟨ready, by simp [hq]⟩
  let b : Broker := { s.shared.broker with
    ready := s.shared.broker.ready.erase m, unacked := s.shared.broker.unacked ++ [m] }
  have rest : Shared.fundings { s.shared with broker := b } = s.shared.fundings.erase m :=
    List.erase_filter.symm
  have spares (i x) : s.shared.Spares i x { s.shared with broker := b } :=
    ⟨id, .rfl, id, rfl, fun _ => id⟩
  refine ⟨?_, fun {i o p d'} hg hd => ?_, fun m' hm' d' hd i => ?_, h.wallet,
    fun {i o r p} hi hg => ?_, h.journal⟩
  · have taken : (s.shared.fundings.map fun m => (Origin.delivery m).job?).Perm
        ((Origin.delivery m).job? :: (s.shared.fundings.erase m).map fun m => (Origin.delivery m).job?) :=
      (List.perm_cons_erase waiting).map _
    refine List.Perm.trans ?_ h.jobs
    show ((s.threads ++ [_]).map _ ++ (Shared.fundings { s.shared with broker := b }).map _).Perm _
    rw [rest, List.map_append, List.append_assoc]
    exact (taken.symm.append_left _)
  · by_cases hi : i = s.threads.length
    · subst hi
      cases (Function.update_self _ _ _).symm.trans hg
      simp only [Origin.job?, data, Option.some.injEq, Job.funding.injEq] at hd
      subst hd
      exact (h.waits m waiting d data _).spared rfl (spares _ _)
    · rw [Function.update_of_ne hi] at hg
      exact (h.stands hg hd).spared rfl (spares _ _)
  · rw [rest] at hm'
    exact (h.waits m' (List.mem_of_mem_erase hm') d' hd i).spared rfl (spares _ _)
  · by_cases hn : i = s.threads.length
    · subst hn
      cases (Function.update_self _ _ _).symm.trans hg
      have first : (⟨.delivery m, (Origin.delivery m).program⟩ : ServiceThread) = ⟨.delivery m, .ret r⟩ :=
        Option.some.inj (List.getElem?_concat_length.symm.trans hi)
      have program : (Origin.delivery m).program = .ret r := congrArg Thread.prog first
      rw [program] at pays
      rcases pays with hp | ⟨hp, -⟩ <;> cases hp
    · rw [Function.update_of_ne hn] at hg
      have hlt : i < s.threads.length := by
        have hlen := (List.getElem?_eq_some_iff.mp hi).1
        simp only [List.length_append, List.length_singleton] at hlen
        omega
      exact h.ended ((List.getElem?_append_left hlt).symm.trans hi) hg

/-- An answered call: its thread goes on, and no other notices. -/
theorem Working.run {i : Nat} {a : Answer} {o : Origin} {op : Op} {k : Except Err op.Res → Proc Reply}
    {r : Except Err op.Res} {p : Progress} {sh : Shared} (h : Working w ds s g)
    (into : ∀ d ∈ ds, d.Into w) (distinct : (ds.map FundWalletDto.txId).Nodup)
    (known : Machine.Known g s.threads) (hi : s.threads[i]? = some ⟨o, .call op k⟩)
    (hg : g i = some (o, p)) (ha : (payment o).allow p op) (he : exec (.ok a) i o op s.shared = some (sh, r))
    (readable : op.Readable a s.shared) (unbeaten : op.Unbeaten s.shared)
    (hend : ∀ r', k r = .ret r' → (payment o).next p op r = .failed ∨ (payment o).next p op r = .paid) :
    Working w ds ⟨sh, s.threads.set i ⟨o, k r⟩⟩
      (Function.update g i (some (o, (payment o).next p op r))) := by
  obtain ⟨d, hd, job⟩ := h.job hi
  rw [payment_of_job job] at ha hend ⊢
  obtain ⟨stands, advances⟩ := (h.stands hg job).call job (into d hd) (h.wallet d hd) ha he readable unbeaten
  have nodup := jobs_nodup h.jobs distinct
  have hlt := (List.getElem?_eq_some_iff.mp hi).1
  refine ⟨?_, fun {n o' p' d'} hgn hd' => ?_, fun m hm d' hd' n => ?_,
    fun d hd => advances.wallet (h.wallet d hd), fun {n o' r' p'} hn hgn => ?_, fun e he => ?_⟩
  · have same : (s.threads.set i ⟨o, k r⟩).map (·.origin.job?) = s.threads.map (·.origin.job?) := by
      refine List.ext_getElem? fun n => ?_
      rw [List.getElem?_map, List.getElem?_map]
      by_cases hn : i = n
      · subst hn
        rw [List.getElem?_set_self hlt, hi, Option.map_some, Option.map_some]
      · rw [List.getElem?_set_ne hn]
    show ((s.threads.set i ⟨o, k r⟩).map _ ++ sh.fundings.map _).Perm _
    rw [same, advances.queue]
    exact h.jobs
  · by_cases hn : n = i
    · subst hn
      cases (Function.update_self _ _ _).symm.trans hgn
      rw [job] at hd'
      cases hd'
      exact stands
    · rw [Function.update_of_ne hn] at hgn
      obtain ⟨q, hq⟩ := known hgn
      have other : d'.txId ≠ d.txId := txId_ne_of_threads nodup hi hq job hd' hn
      exact (h.stands hgn hd').spared rfl (advances.spares n d'.txId hn other)
  · have waiting : m ∈ s.shared.fundings := advances.queue ▸ hm
    have other : d'.txId ≠ d.txId := txId_ne_of_waiting nodup hi job waiting hd'
    exact (h.waits m waiting d' hd' (i + 1)).spared rfl (advances.spares (i + 1) d'.txId (by omega) other)
  · by_cases hn' : n = i
    · subst hn'
      cases (Function.update_self _ _ _).symm.trans hgn
      have last : (⟨o, k r⟩ : ServiceThread) = ⟨o, .ret r'⟩ :=
        Option.some.inj ((List.getElem?_set_self hlt).symm.trans hn)
      exact hend r' (congrArg Thread.prog last)
    · rw [Function.update_of_ne hn'] at hgn
      exact h.ended ((List.getElem?_set_ne (Ne.symm hn')).symm.trans hn) hgn
  · rcases advances.journal e he with he | he | he
    · exact h.journal e he
    · exact .inl ⟨_, he⟩
    · exact .inr ⟨d, hd, he⟩

theorem Working.step (into : ∀ d ∈ ds, d.Into w) (distinct : (ds.map FundWalletDto.txId).Nodup)
    (hl : DepositRun s l) (hu : Unbeaten s l)
    (ht : Machine.Tracks .crashed payment Settling s.threads g) (h : Working w ds s g)
    (hfol : Machine.Follows service .crashed payment (fun _ => .looking) s g l t g') :
    Working w ds t g' := by
  cases hfol with
  | start hacc _ =>
    obtain ⟨m, rfl, hq⟩ := hl.starts _ rfl
    exact h.start hq hacc
  | @run i c o op k sh r p hi hg ha he =>
    obtain ⟨a, rfl, readable⟩ := hl.answers i c rfl
    refine h.run into distinct ht.known hi hg ha he (readable o op k hi) (hu i _ o op k rfl hi) fun r' hr => ?_
    obtain ⟨p', hg', -, rest⟩ := ht.called hi
    cases hg.symm.trans hg'
    have last := rest r
    rw [hr] at last
    exact last.imp_right And.left
  | env he => exact h.env he (hl.env _ rfl)
  | kill _ _ => exact absurd rfl (hl.lives _)

/-- Nothing is under way yet. -/
theorem State.Awaits.working (hs : s.Awaits w ds) : Working w ds s fun _ => none where
  jobs := hs.queued
  stands hg := by cases hg
  waits m hm d data i := by
    have mem : some (Job.funding d) ∈ s.jobs := by
      refine List.mem_append_right _ (List.mem_map.mpr ⟨m, hm, ?_⟩)
      simp only [Origin.job?, data]
    obtain ⟨d', hd, he⟩ := List.mem_map.mp (hs.queued.mem_iff.mp mem)
    cases he
    exact hs.unused d hd
  wallet d hd := by
    obtain ⟨-, user, currency, present⟩ := hs.into d hd
    exact ⟨w, hs.wallet, rfl, rfl, present⟩
  ended _ hg := by cases hg
  journal e he := by rw [hs.quiet.journal] at he; cases he

/-- At the end of the run every deposit is committed. -/
theorem Working.committed (h : Working w ds s g) (ht : Machine.Tracks .crashed payment Settling s.threads g)
    (done : s.Drained) {d : FundWalletDto} (hd : d ∈ ds) :
    ∃ e ∈ s.shared.journal, e.event = .committed (.funding d) := by
  obtain ⟨idle, empty⟩ := done
  have mem : some (Job.funding d) ∈ s.jobs := h.jobs.mem_iff.mpr (List.mem_map.mpr ⟨d, hd, rfl⟩)
  rw [State.jobs, empty, List.map_nil, List.append_nil] at mem
  obtain ⟨th, hth, job⟩ := List.mem_map.mp mem
  obtain ⟨i, hi⟩ := List.mem_iff_getElem?.mp hth
  obtain ⟨o, q⟩ := th
  obtain ⟨p, hg, -⟩ := ht.obeys i _ hi
  have stands : p.Stands d w i s.shared := h.stands hg job
  cases q with
  | call op k => exact absurd ⟨o, op, k, hi⟩ (Config.idle_iff.mp idle i)
  | ret r =>
    rcases h.ended hi hg with rfl | rfl
    · exact stands.elim
    · exact stands

/-- At the end of the run the deposits committed are those that were queued. -/
theorem Working.deposits (h : Working w ds s g) (ht : Machine.Tracks .crashed payment Settling s.threads g)
    (done : s.Drained) (once : s.shared.committedIds.Nodup) (distinct : (ds.map FundWalletDto.txId).Nodup) :
    ((s.shared.journal.map Entry.event).filterMap Event.deposit?).Perm ds := by
  have ids : ((s.shared.journal.map Entry.event).filterMap Event.deposit?).map FundWalletDto.txId =
      s.shared.committedIds := by
    rw [List.map_filterMap, List.filterMap_map]
    refine List.filterMap_congr fun e he => ?_
    rcases h.journal e he with ⟨t, hc⟩ | ⟨d, -, hc⟩ <;>
      simp only [Function.comp_apply, hc] <;> rfl
  refine (List.perm_ext_iff_of_nodup (.of_map _ (ids ▸ once)) distinct.of_map).mpr fun d => ?_
  rw [List.mem_filterMap]
  constructor
  · rintro ⟨x, hx, hd⟩
    obtain ⟨e, he, rfl⟩ := List.mem_map.mp hx
    rcases h.journal e he with ⟨t, hc⟩ | ⟨d', hd', hc⟩
    · rw [hc] at hd; cases hd
    · rw [hc] at hd; cases hd; exact hd'
  · intro hd
    obtain ⟨e, he, hc⟩ := h.committed ht done hd
    exact ⟨e.event, List.mem_map.mpr ⟨e, he, rfl⟩, by rw [hc]; rfl⟩

theorem walletRun_of_deposits {s : State} {l : Step} (h : DepositRun s l ∧ Unbeaten s l) : WalletRun s l := by
  cases l with
  | start o =>
    obtain ⟨m, rfl, -⟩ := h.1.starts o rfl
    exact rfl
  | _ => exact rfl

/-- The book of a run of deposits that has come to its end. -/
theorem deposits_add_up (hs : s.Awaits w ds) (exact : ∀ d ∈ ds, Decimal.Exact 4 d.amount)
    (h : Reach (fun s l => DepositRun s l ∧ Unbeaten s l) s t) (done : t.Drained) :
    ∃ v, t.shared.db.wallets.find? w.id = some v ∧
      v.balance.toRat = w.balance.toRat + (ds.map fun d => netAmount d.amount).sum := by
  obtain ⟨g, ht, working⟩ := Machine.Tracks.invariant
    (fun s o sh hc => service_pays s o sh hc.1) (.of_nil hs.quiet.threads) hs.working
    (fun v g l v' g' hc ht hI hf => hI.step hs.into hs.distinct hc.1 hc.2 ht hf) h
  obtain ⟨threads, -, owned⟩ := ((owned_keeps _ _).stable).invariant
    (service_obeys fun _ _ => walletRun_of_deposits) hs.quiet.tracks hs.quiet.owned h
  have explains := Reach.explains (fun _ _ => walletRun_of_deposits) hs.quiet h
  have paid : ((t.shared.journal.map Entry.event).filterMap Event.deposit?).Perm ds :=
    working.deposits ht done owned.nodup hs.distinct
  obtain ⟨v, hv, balance⟩ := Book.balance_deposits explains hs.wallet fun e he => by
    obtain ⟨x, hx, rfl⟩ := List.mem_map.mp he
    rcases working.journal x hx with created | ⟨d, hd, committed⟩
    · exact .inl created
    · exact .inr ⟨d, committed, (hs.into d hd).1, exact d hd⟩
  exact ⟨v, hv, balance.trans (congrArg (w.balance.toRat + ·) (paid.map _).sum_eq)⟩

/-- Deposits that each find the version they have read, of at most four digits,
commute: all interleavings end with the same balance. -/
theorem deposits_commute (hs : s.Awaits w ds) (exact : ∀ d ∈ ds, Decimal.Exact 4 d.amount)
    (ht : Reach (fun s l => DepositRun s l ∧ Unbeaten s l) s t)
    (hu : Reach (fun s l => DepositRun s l ∧ Unbeaten s l) s u)
    (td : t.Drained) (ud : u.Drained) :
    ∃ v v', t.shared.db.wallets.find? w.id = some v ∧ u.shared.db.wallets.find? w.id = some v' ∧
      v'.balance = v.balance ∧
      v.balance.toRat = w.balance.toRat + (ds.map fun d => netAmount d.amount).sum := by
  obtain ⟨v, hv, balance⟩ := deposits_add_up hs exact ht td
  obtain ⟨v', hv', balance'⟩ := deposits_add_up hs exact hu ud
  exact ⟨v, v', hv, hv', Decimal.toRat_injective (balance'.trans balance.symm), balance⟩

end
/-- A call a deposit may make in this state, and whether an update is not beaten. -/
def depositStep (unbeaten : Bool) (s : State) : Step → Bool
  | .start (.delivery m) => m.queue = .walletFunding
  | .run i (.ok a) => s.threads[i]?.all fun th => match th.prog with
      | .call (.tx (.walletFindUnique id)) _ =>
          ((s.shared.versions.filter fun w => w.id = id)[a.pick]?).isSome
      | .call (.tx (.walletUpdate id v _ _)) _ =>
          !unbeaten || (s.shared.db.wallets.find? id).any (·.version = v)
      | _ => true
  | .env (.expire _) | .env .tick => true
  | _ => false

theorem depositRun_of_step {b : Bool} {s : State} {l : Step} (h : depositStep b s l = true) :
    DepositRun s l := by
  cases l with
  | start o =>
    cases o with
    | http tok r => cases h
    | delivery m =>
      exact ⟨fun o hl => by cases hl; exact ⟨m, rfl, of_decide_eq_true h⟩, fun _ _ hl => (by cases hl),
        fun _ hl => (by cases hl), fun _ hl => by cases hl⟩
  | run i c =>
    cases c with
    | fail | failAfter => cases h
    | ok a =>
      refine ⟨fun _ hl => (by cases hl), fun j c hl => ?_, fun _ hl => (by cases hl), fun _ hl => by cases hl⟩
      cases hl
      refine ⟨a, rfl, fun o op k hi id hop => ?_⟩
      subst hop
      simpa only [depositStep, hi, Option.all_some] using h
  | env e =>
    refine ⟨fun _ hl => (by cases hl), fun _ _ hl => (by cases hl), fun _ hl => (by cases hl), fun e' hl => ?_⟩
    cases hl
    cases e with
    | expire k => exact .inl ⟨k, rfl⟩
    | tick => exact .inr rfl
    | _ => cases h
  | kill i => cases h

theorem unbeaten_of_step {s : State} {l : Step} (h : depositStep true s l = true) : Unbeaten s l := by
  intro i c o op k hl hi id v inc nv hop
  subst hl hop
  cases c with
  | fail | failAfter => cases h
  | ok a =>
    simp only [depositStep, hi, Option.all_some, Bool.not_true, Bool.false_or] at h
    obtain ⟨w, hw, hv⟩ := (Option.any_eq_true _ _).mp h
    exact ⟨w, hw, of_decide_eq_true hv⟩

def emptyWallet : Wallet := ⟨1, 1, 0, "USD", 0, 0, none⟩
def deposit₁ : FundWalletDto := ⟨1, 1, "USD", 10, "a"⟩
def deposit₂ : FundWalletDto := ⟨1, 1, "USD", 20, "b"⟩

def depositDelivered (d : FundWalletDto) (x : Option Nat) (tag : Nat) : Step :=
  .start (.delivery ⟨.walletFunding, .job (.funding d), x, tag⟩)

/-- Two deposits into an empty wallet wait. -/
def State.twoDeposits : State :=
  { State.empty with
    shared.db.wallets := ⟨[emptyWallet], List.nodup_singleton _⟩
    shared.versions := [emptyWallet]
    shared.broker := ⟨[⟨.walletFunding, .job (.funding deposit₁), none, 0⟩,
      ⟨.walletFunding, .job (.funding deposit₂), none, 1⟩], [], [], 2⟩ }

theorem State.twoDeposits_awaits : State.twoDeposits.Awaits emptyWallet [deposit₁, deposit₂] where
  quiet := ⟨rfl, fun _ => rfl, fun _ => rfl, rfl, rfl⟩
  wallet := by decide
  into := by
    intro d hd
    rcases List.mem_cons.mp hd with rfl | hd
    · exact ⟨rfl, rfl, rfl, rfl⟩
    · rw [List.mem_singleton.mp hd]; exact ⟨rfl, rfl, rfl, rfl⟩
  distinct := by decide
  unused d _ := ⟨rfl, fun h => (by cases h), rfl⟩
  queued := .refl _

/-- One deposit after the other. -/
def depositsInTurn : List Step :=
  depositDelivered deposit₁ none 0 :: calls 0 13 ++
  depositDelivered deposit₂ none 1 :: calls 1 4 ++ .run 1 (.ok { pick := 1 }) :: calls 1 8

/-- The second deposit is delivered first, and both handlers are under way when
it commits. -/
def depositsOverlapping : List Step :=
  depositDelivered deposit₂ none 1 :: calls 0 5 ++ depositDelivered deposit₁ none 0 :: calls 1 4 ++
  calls 0 4 ++ .run 1 (.ok { pick := 1 }) :: calls 0 2 ++ calls 1 4 ++ calls 0 2 ++ calls 1 4

/-- Both handlers have read the wallet when the first one commits. -/
def depositsAtOnce : List Step :=
  depositDelivered deposit₁ none 0 :: calls 0 5 ++ depositDelivered deposit₂ none 1 :: calls 1 5 ++
  calls 0 8 ++ calls 1 7 ++ depositDelivered deposit₂ (some 1) 3 :: calls 2 1

def State.drained (s : State) : Bool := s.idle && s.shared.fundings.isEmpty

theorem State.drained_iff {s : State} : State.drained s = true ↔ s.Drained := by
  rw [State.drained, Bool.and_eq_true, List.isEmpty_iff]
  rfl

/-- What the wallet holds, in units of the last digit. -/
def State.holds (s : State) (id : Int) : Option Int := (s.shared.db.wallets.find? id).map (·.balance.units)

/-- The txIds of the deposits in the order of their ledger rows. -/
def State.entered (s : State) : List String := s.shared.db.transactions.rows.map (·.reference)

theorem unbeaten_deposits_end (ls : List Step) (order : List String)
    (h : ((service.runsIf .crashed (depositStep true) ls State.twoDeposits).any fun t =>
      State.drained t && decide (State.holds t 1 = some 298500) &&
        decide (State.entered t = order)) = true) :
    ∃ t, Reach (fun s l => DepositRun s l ∧ Unbeaten s l) State.twoDeposits t ∧ t.Drained ∧
      t.holds 1 = some 298500 ∧ t.entered = order := by
  obtain ⟨t, ht, hp⟩ := (Option.any_eq_true _ _).mp h
  simp only [Bool.and_eq_true, decide_eq_true_eq] at hp
  obtain ⟨⟨done, units⟩, entered⟩ := hp
  exact ⟨t, Machine.reach_of_runsIf (fun s l hl => ⟨depositRun_of_step hl, unbeaten_of_step hl⟩) ht,
    State.drained_iff.mp done, units, entered⟩

theorem depositsInTurn_end : ∃ t, Reach (fun s l => DepositRun s l ∧ Unbeaten s l) State.twoDeposits t ∧
    t.Drained ∧ t.holds 1 = some 298500 ∧ t.entered = ["a", "b"] :=
  unbeaten_deposits_end depositsInTurn _ (by decide +kernel)

theorem deposits_commute_in_turn : ∃ t u,
    Reach (fun s l => DepositRun s l ∧ Unbeaten s l) State.twoDeposits t ∧ t.Drained ∧
    t.entered = ["a", "b"] ∧
    Reach (fun s l => DepositRun s l ∧ Unbeaten s l) State.twoDeposits u ∧ u.Drained ∧
    u.entered = ["b", "a"] ∧
    ∃ v v', t.shared.db.wallets.find? 1 = some v ∧ u.shared.db.wallets.find? 1 = some v' ∧
      v'.balance = v.balance ∧ v.balance.toRat =
        emptyWallet.balance.toRat + ([deposit₁, deposit₂].map fun d => netAmount d.amount).sum := by
  obtain ⟨t, ht, done, -, entered⟩ := depositsInTurn_end
  obtain ⟨u, hu, done', -, entered'⟩ :=
    unbeaten_deposits_end depositsOverlapping ["b", "a"] (by decide +kernel)
  have exact : ∀ d ∈ [deposit₁, deposit₂], Decimal.Exact 4 d.amount := by decide +kernel
  exact ⟨t, u, ht, done, entered, hu, done', entered',
    deposits_commute State.twoDeposits_awaits (fun d hd => exact d hd) ht hu done done'⟩

/-- The handler that is beaten marks its request failed, and its retry finds the
request settled. -/
theorem concurrent_deposit_is_lost : ∃ s w ds t u, s.Awaits w ds ∧ (∀ d ∈ ds, Decimal.Exact 4 d.amount) ∧
    Reach DepositRun s t ∧ Reach DepositRun s u ∧ t.Drained ∧ u.Drained ∧
    ¬ ∃ v v', t.shared.db.wallets.find? w.id = some v ∧ u.shared.db.wallets.find? w.id = some v' ∧
      v'.balance = v.balance ∧
      v.balance.toRat = w.balance.toRat + (ds.map fun d => netAmount d.amount).sum := by
  have h : ((service.runsIf .crashed (depositStep false) depositsAtOnce State.twoDeposits).any fun u =>
      State.drained u && decide (State.holds u 1 = some 99500)) = true := by decide +kernel
  obtain ⟨u, hu, hp⟩ := (Option.any_eq_true _ _).mp h
  obtain ⟨done, units⟩ := (Bool.and_eq_true _ _).mp hp
  obtain ⟨t, reach, done', units', -⟩ := depositsInTurn_end
  refine ⟨State.twoDeposits, emptyWallet, [deposit₁, deposit₂], t, u, State.twoDeposits_awaits,
    by decide +kernel, Machine.Reach.mono (fun _ _ hc => hc.1) reach,
    Machine.reach_of_runsIf (fun s l hl => depositRun_of_step hl) hu,
    done', State.drained_iff.mp done, ?_⟩
  rintro ⟨v, v', hv, hv', same, -⟩
  have ht : State.holds t 1 = some v.balance.units := congrArg (Option.map _) hv
  have hu : State.holds u 1 = some v'.balance.units := congrArg (Option.map _) hv'
  rw [units'] at ht
  rw [of_decide_eq_true units, same, ← ht] at hu
  cases hu

end Pactic
