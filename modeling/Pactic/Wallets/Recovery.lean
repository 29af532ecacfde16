import Pactic.Protocol.Calls
import Pactic.Protocol.Handover
import Pactic.Wallets.Status

/-! # Requests that stay pending

The pre-log commits its row at once; the commit or the catch block settles it
later. Whoever finds the row there takes the request for handled and returns. So
a handler that dies in between leaves a row that nobody settles, however often
its message is delivered again. -/
namespace Pactic
open Keyed Resumption

/-- The row of this request says pending. -/
def Shared.Pending (sh : Shared) (txId : String) : Prop :=
  ∃ r, sh.db.walletRequests.find? txId = some r ∧ r.status = .pending

/-- Thread `i` has inserted the row of this request. -/
def Shared.LoggedBy (sh : Shared) (i : Nat) (txId : String) : Prop :=
  ∃ e ∈ sh.journal, e.thread = i ∧ e.event = .requestCreated txId

/-- While the row a handler has inserted is pending, the handler does not die,
and its catch block reaches the database. -/
def Recoverable (s : State) (l : Step) : Prop := WalletRun s l ∧
  ∀ i txId, s.shared.LoggedBy i txId → s.shared.Pending txId → l ≠ .kill i ∧
    ∀ o status k, s.threads[i]? = some ⟨o, .call (.prisma (.walletRequestUpdateMany txId status)) k⟩ →
      l ≠ .run i .fail

/-! ## Who has a row to settle -/

/-- Whether the thread may have inserted a row that it has not settled. -/
inductive Debt where
  | clear | owing
  deriving DecidableEq

def Debt.next (p : Debt) : (o : Op) → Except Err o.Res → Debt
  | .prisma (.walletRequestCreate _), .ok _ => .owing
  | .prisma (.walletRequestCreate _), .error e => if e = .p2002 then p else .owing
  | .prisma (.walletRequestUpdateMany _ _), _ => .clear
  | .tx .commit, .ok _ => .clear
  | _, _ => p

def debts (_ : Origin) : Monitor Op Op.Res Err Debt := ⟨fun _ _ => True, Debt.next⟩

/-- A delivery of a job ends without a debt. -/
def Paid (o : Origin) (_ : Except Err Reply) (p : Debt) : Prop := o.job?.isSome → p = .clear

section
variable {o : Origin} {p : Debt} {α β : Type}

theorem minor_still {op : Op} (h : op.minor = true) :
    (debts o).allow p op ∧ ∀ r, (debts o).next p op r = p := by
  cases op with
  | prisma op => cases op <;> first | exact ⟨trivial, fun _ => rfl⟩ | cases h
  | tx op => cases h
  | _ => exact ⟨trivial, fun _ => rfl⟩

theorem statement_still {op : Op} (h : op.statement = true) :
    (debts o).allow p op ∧ ∀ r, (debts o).next p op r = p := by
  cases op with
  | tx op =>
    cases op with
    | begin | commit | rollback => cases h
    | _ => exact ⟨trivial, fun r => by cases r <;> rfl⟩
  | _ => cases h

theorem MinorCalls.debts {c : Proc α} (h : MinorCalls c) :
    (debts o).wp c (fun _ q => q = p) p := Monitor.wp_of_only _ (fun _ => minor_still) h

theorem publish_debts (q data x) : (debts o).wp (sendToQueue q data x) (fun _ t => t = p) p := by
  refine (Monitor.wp_tryCatch _ _ _ _ _).mpr ((Monitor.wp_bind _ _ _ _ _).mpr ⟨trivial, ?_⟩)
  exact forall_except_unit.mpr ⟨⟨trivial, forall_except_unit.mpr ⟨rfl, fun _ => rfl⟩⟩, fun _ => rfl⟩

/-- What a program owes when it returns. -/
def PaidIfOk (r : Except Err α) (q : Debt) : Prop := ∀ a, r = .ok a → q = .clear

theorem PaidIfOk.error {e : Err} {q : Debt} : PaidIfOk (.error e : Except Err α) q :=
  fun _ h => by cases h

/-- A session that commits has settled its row. -/
theorem transaction_debts {body : Proc α} {rest : α → Proc β} (h : Statements body)
    (hr : ∀ a, MinorCalls (rest a)) :
    (debts o).wp (do let a ← Prisma.transaction body; rest a) PaidIfOk p := by
  refine (Monitor.wp_bind _ _ _ _ _).mpr ((Monitor.wp_bind _ _ _ _ _).mpr ⟨trivial, ?_⟩)
  refine forall_except_unit.mpr ⟨?_, fun _ => .error⟩
  refine (Monitor.wp_bind _ _ _ _ _).mpr ((Monitor.wp_tryCatch _ _ _ _ _).mpr ?_)
  refine Monitor.wp_mono _ (Monitor.wp_of_only _ (fun _ => statement_still) h) fun r q _ => ?_
  cases r with
  | error e =>
    exact (Monitor.wp_bind _ _ _ _ _).mpr ⟨trivial, forall_except_unit.mpr ⟨.error, fun _ => .error⟩⟩
  | ok a =>
    refine (Monitor.wp_bind _ _ _ _ _).mpr ⟨trivial, forall_except_unit.mpr ⟨?_, fun _ => .error⟩⟩
    show (debts o).wp (rest a) PaidIfOk .clear
    exact Monitor.wp_mono _ (hr a).debts fun r q hq _ _ => hq

theorem fund_debts (d : FundWalletDto) : (debts o).wp (fund d) PaidIfOk p := by
  refine (Monitor.wp_perform_bind _ _ _ _ _).mpr ⟨trivial, fun w => ?_, fun _ => .error⟩
  refine (Monitor.wp_bind _ _ _ _ _).mpr (Monitor.wp_mono _
    (MinorCalls.debts (checkWallet_only w _ _ _)) fun r q _ => ?_)
  cases r with
  | error e => exact .error
  | ok w => exact transaction_debts (fundingTransaction_calls d) (funded_calls d)

theorem withdraw_debts (d : WithdrawWalletDto) : (debts o).wp (withdraw d) PaidIfOk p :=
  transaction_debts (withdrawalTransaction_calls d) (withdrawn_calls d)

theorem transfer_debts (d : TransferWalletDto) : (debts o).wp (transfer d) PaidIfOk p :=
  transaction_debts (transferTransaction_calls d) fun _ => transferred_calls d

/-- Only the thread that has inserted the row goes on. -/
theorem guarded_debts {c : Proc Unit} (h : (debts o).wp c PaidIfOk .owing) (u cur t) :
    (debts o).wp (do
      if ← alreadyProcessed t then pure ()
      else if ← preLog u cur t then c
      else pure ()) PaidIfOk .clear := by
  refine (Monitor.wp_bind _ _ _ _ _).mpr (Monitor.wp_mono _ (alreadyProcessed_calls t).debts
    fun r q hq => ?_)
  subst hq
  cases r with
  | error e => exact .error
  | ok skip =>
    cases skip with
    | true => exact fun _ _ => rfl
    | false =>
      refine (Monitor.wp_bind _ _ _ _ _).mpr ((Monitor.wp_tryCatch _ _ _ _ _).mpr
        ((Monitor.wp_perform_bind _ _ _ _ _).mpr ⟨trivial, fun _ => h, fun e => ?_⟩))
      dsimp only
      split
      · next he => subst he; exact fun _ _ => rfl
      · exact .error

theorem markFailed_debts (t : String) :
    (debts o).wp (markFailed t) (fun _ q => q = .clear) p := by
  refine (Monitor.wp_bind _ _ _ _ _).mpr ⟨trivial, forall_except_unit.mpr ⟨?_, fun _ => rfl⟩⟩
  exact ⟨trivial, fun _ => rfl⟩

/-- Whichever way a handler ends, its catch block has settled the row, or tried to. -/
theorem handler_debts (j : Job) : (debts o).wp j.handler (fun _ q => q = .clear) .clear := by
  have settle {c : Proc Unit} {rest : Err → Proc Unit} (h : (debts o).wp c PaidIfOk .clear)
      (hr : ∀ e q, (debts o).wp (rest e) (fun _ q => q = .clear) q) :
      (debts o).wp (tryCatch c rest) (fun _ q => q = .clear) .clear := by
    refine (Monitor.wp_tryCatch _ _ _ _ _).mpr (Monitor.wp_mono _ h fun r q hq => ?_)
    cases r with
    | ok _ => exact hq _ rfl
    | error e => exact hr e q
  have rethrow (t : String) (e : Err) (q : Debt) :
      (debts o).wp (do markFailed t; throw e : Proc Unit) (fun _ q => q = .clear) q := by
    refine (Monitor.wp_bind _ _ _ _ _).mpr (Monitor.wp_mono _ (markFailed_debts t) fun r q hq => ?_)
    cases r with
    | ok _ => exact hq
    | error _ => exact hq
  cases j with
  | funding d => exact settle (guarded_debts (fund_debts d) _ _ _) (rethrow _)
  | withdrawal d => exact settle (guarded_debts (withdraw_debts d) _ _ _) fun _ _ => markFailed_debts _
  | transfer d => exact settle (guarded_debts (transfer_debts d) _ _ _) (rethrow _)

theorem consume_debts (j : Job) (m : Message) :
    (debts o).wp (consume m.queue j.handler m) (fun _ q => q = .clear) .clear := by
  refine (Monitor.wp_tryCatch _ _ _ _ _).mpr (Monitor.wp_mono _ (handler_debts j) fun r q hq => ?_)
  subst hq
  cases r with
  | ok _ => rfl
  | error e =>
    have retry (q) : (debts o).wp (do
        sendToQueue q m.data (some (m.attempts + 1))
        call (.rabbit (.ack m))) (fun _ q => q = .clear) .clear := by
      refine (Monitor.wp_bind _ _ _ _ _).mpr (Monitor.wp_mono _ (publish_debts _ _ _)
        fun r q hq => ?_)
      subst hq
      cases r with
      | ok _ => exact ⟨trivial, fun _ => rfl⟩
      | error _ => rfl
    dsimp only
    split
    · exact retry _
    · exact retry _

/-- Every handler that ends is clear of its row. -/
theorem service_debts (C : State → Step → Prop) :
    Machine.Obeys service debts Paid (fun _ => .clear) C := by
  intro s o sh _ ha
  have free (hj : o.job? = none) : (debts o).wp o.program (Paid o) .clear :=
    Monitor.wp_mono _ (Monitor.wp_of_allow _ (fun _ _ => trivial) _ _) fun _ _ _ hs => by
      rw [hj] at hs; cases hs
  cases o with
  | http tok r => exact free rfl
  | delivery m =>
    obtain ⟨c, hc, program⟩ := Origin.program_delivery (Origin.accept_delivery ha).2.1
    obtain ⟨handler, rfl, -, hq⟩ := deliver_eq_consume hc
    cases hj : (Origin.delivery m).job? with
    | none => exact free hj
    | some j =>
      obtain ⟨-, rfl⟩ := hq j (Origin.job?_delivery.mp hj)
      show (debts _).wp (Origin.delivery m).program _ _
      rw [program]
      refine (Monitor.wp_bind _ _ _ _ _).mpr (Monitor.wp_mono _ (consume_debts j m)
        fun r p hp => ?_)
      cases r with
      | ok _ => exact fun _ => hp
      | error _ => exact fun _ => hp

end

/-! ## Who settles a pending row -/

section
variable {sh sh' : Shared} {g : Threads} {i : Nat} {o : Origin} {p p' : Local} {c : Choice}
  {j : Job} {txId : String}

theorem Shared.LoggedBy.more {es} (h : sh.LoggedBy i txId) (hj : sh'.journal = sh.journal ++ es) :
    sh'.LoggedBy i txId := by
  obtain ⟨e, he, rest⟩ := h
  exact ⟨e, hj ▸ List.mem_append_left _ he, rest⟩

theorem Origin.records?_success {r : WalletRequest} (h : o.records? = some r) :
    r.status = .success := by
  cases o with
  | delivery m => cases h
  | http tok req => cases req <;> cases h; rfl

/-- A status that is set is not pending again. -/
theorem setStatus_pending {tab : Table WalletRequest.txId} {t : String} {s : Status} {r}
    (hs : s ≠ .pending) (hr : (setStatus tab (t, s)).find? txId = some r)
    (hp : r.status = .pending) : t ≠ txId ∧ tab.find? txId = some r := by
  rw [setStatus_find?] at hr
  split at hr
  · obtain ⟨r₀, -, rfl⟩ := Option.map_eq_some_iff.mp hr
    exact absurd hp hs
  · next hne => exact ⟨hne, hr⟩

/-- A row that is pending after a call was pending before, or the call has inserted it. -/
theorem Move.pending {op : Op} (sound : Sound sh g) (hg : g i = some (o, p))
    (ha : o.Allows p op) (hm : Move i o sh p op sh' p') (h : sh'.Pending txId) : sh.Pending txId ∨
      ∃ j, o.job? = some j ∧ j.txId = txId ∧ op = .prisma (.walletRequestCreate j.pending) ∧
        sh'.LoggedBy i txId ∧ p'.stage ≠ .skipped := by
  obtain ⟨r, hr, hp⟩ := h
  have same (he : sh'.db.walletRequests = sh.db.walletRequests) : sh.Pending txId :=
    ⟨r, he ▸ hr, hp⟩
  cases hm with
  | look hsame _ _ => exact .inl (same hsame.walletRequests)
  | stop hsame _ _ => exact .inl (same hsame.walletRequests)
  | @record row rows _ job ins _ _ =>
    have hr : rows.find? txId = some r := hr
    rw [Table.find?_of_insert? ins] at hr
    split at hr
    · cases hr
      rcases ha with ⟨j, hj, -⟩ | hrec
      · rw [job] at hj; cases hj
      · rw [Origin.records?_success hrec] at hp; cases hp
    · exact .inl ⟨r, hr, hp⟩
  | @preLog j rows _ job _ ins stage _ =>
    have hr : rows.find? txId = some r := hr
    rw [Table.find?_of_insert? ins] at hr
    split at hr
    · next he =>
      have mine : Event.requestCreated j.txId = .requestCreated txId := congrArg _ he
      refine .inr ⟨j, job, he, rfl, ⟨_, List.mem_append_right _ (.head _), rfl, mine⟩, ?_⟩
      rcases stage with hs | hs <;> rw [hs] <;> decide
    · exact .inl ⟨r, hr, hp⟩
  | markFailed _ => exact .inl ⟨r, (setStatus_pending (by decide) hr hp).2, hp⟩
  | @commit j tx t _ job session opened _ _ _ =>
    have hreq := (sound.session hg job session opened).requests.trans (if_pos rfl)
    simp only [Shared.note, Shared.install, Shared.rollback, hreq, List.foldl_cons,
      List.foldl_nil] at hr
    exact .inl ⟨r, (setStatus_pending (by decide) hr hp).2, hp⟩
  | _ => exact .inl (same rfl)

/-- A handler is rid of its debt by a call that settles its row. -/
theorem Debt.settles {op : Op} {r} (sound : Sound sh g) (hg : g i = some (o, p))
    (ha : o.Allows p op) (hj : o.job? = some j) (he : exec c i o op sh = some (sh', r))
    (hd : Debt.next .owing op r = .clear)
    (hc : ∀ status, op = .prisma (.walletRequestUpdateMany j.txId status) → c ≠ .fail) :
    ¬ sh'.Pending j.txId := by
  intro pending
  obtain ⟨row, hr, hp⟩ := pending
  cases op with
  | prisma op =>
    cases op with
    | walletRequestUpdateMany t status =>
      obtain ⟨rfl, j', hj', rfl⟩ := ha
      rw [hj] at hj'
      cases hj'
      have hsh : sh' = sh.setRequests (setStatus sh.db.walletRequests (j.txId, .failed)) := by
        cases c with
        | ok a => cases he; rfl
        | fail => exact absurd rfl (hc _ rfl)
        | failAfter a => cases he; rfl
      subst hsh
      exact (setStatus_pending (by decide) hr hp).1 rfl
    | walletRequestCreate row =>
      cases r with
      | ok _ => cases hd
      | error e =>
        simp only [Debt.next, ite_self] at hd
        cases hd
    | _ => cases hd
  | tx op =>
    cases op with
    | commit =>
      cases r with
      | error e => cases hd
      | ok u =>
        obtain ⟨j', hj', session⟩ := ha
        rw [hj] at hj'
        cases hj'
        rcases exec_answer he with ⟨a, -, hrun⟩ | herr
        · simp only [Op.run, TxOp.run, Option.map_eq_some_iff] at hrun
          obtain ⟨tx, opened, hrun⟩ := hrun
          have hreq := (sound.session hg hj session opened).requests.trans (if_pos rfl)
          unfold Shared.commit at hrun
          split at hrun
          · cases hrun
          · simp only [hj] at hrun
            cases hrun
            simp only [Shared.note, Shared.rollback, hreq, List.foldl_cons, List.foldl_nil] at hr
            exact (setStatus_pending (by decide) hr hp).1 rfl
        · cases herr
    | _ => cases r <;> cases hd
  | _ => cases hd

end

/-- Every pending row was inserted by a handler that is alive and owes it. -/
def Owed (s : State) (g : Machine.Ghost Origin Debt) : Prop :=
  ∀ txId, s.shared.Pending txId → ∃ i o j, s.shared.LoggedBy i txId ∧ o.job? = some j ∧
    j.txId = txId ∧ Machine.Alive debts Paid s.threads g i o .owing

theorem owed_step {s t : State} {l : Step} {g g' : Machine.Ghost Origin Debt}
    (hc : Recoverable s l) (known : s.Known) (ht : Machine.Tracks .crashed debts Paid s.threads g)
    (h : Owed s g) (hf : Machine.Follows service .crashed debts (fun _ => .clear) s g l t g') :
    Owed t g' := by
  intro txId pending
  -- whoever owed a row still owes it, or the row is not pending any more
  have stays (hp : s.shared.Pending txId) (hj : ∃ es, t.shared.journal = s.shared.journal ++ es)
      (moved : ∀ i c o j, l = .run i c → s.shared.LoggedBy i txId → o.job? = some j →
        j.txId = txId → Machine.Alive debts Paid s.threads g i o .owing →
        Machine.Alive debts Paid t.threads g' i o .owing) :
      ∃ i o j, t.shared.LoggedBy i txId ∧ o.job? = some j ∧ j.txId = txId ∧
        Machine.Alive debts Paid t.threads g' i o .owing := by
    obtain ⟨i, o, j, logged, hjob, htx, alive⟩ := h txId hp
    obtain ⟨es, hj⟩ := hj
    refine ⟨i, o, j, logged.more hj, hjob, htx, ?_⟩
    by_cases hr : ∃ c, l = .run i c
    · obtain ⟨c, hr⟩ := hr
      exact moved i c o j hr logged hjob htx alive
    · exact hf.alive_stays alive (fun c hl => hr ⟨c, hl⟩) (hc.2 i txId logged hp).1
  have same (hb : s.shared.SameBooks t.shared) (hn : ∀ i c, l ≠ .run i c) :
      ∃ i o j, t.shared.LoggedBy i txId ∧ o.job? = some j ∧ j.txId = txId ∧
        Machine.Alive debts Paid t.threads g' i o .owing := by
    obtain ⟨r, hr, hp⟩ := pending
    exact stays ⟨r, hb.walletRequests ▸ hr, hp⟩ ⟨[], by rw [hb.journal, List.append_nil]⟩
      fun i c _ _ hl => absurd hl (hn i c)
  cases l with
  | start o =>
    cases hf with
    | start ha _ => exact same (Origin.accept_same ha) fun _ _ hl => by cases hl
  | env e =>
    cases hf with
    | env he => exact same (EnvStep.run_same he) fun _ _ hl => by cases hl
  | kill i =>
    cases hf with
    | kill _ _ =>
      exact stays pending ⟨[], (List.append_nil _).symm⟩ fun _ _ _ _ hl => by cases hl
  | run i c =>
    obtain ⟨o, op, k, r, p, hi, alive, -, he, alive'⟩ := hf.alive_moved ht
    obtain ⟨gl, htl, sound⟩ := known
    obtain ⟨pl, hgl, allowed, -⟩ := htl.called hi
    have move := exec_move allowed he
    rcases move.pending sound hgl allowed pending with hp | ⟨j, hj, htx, rfl, logged, hs⟩
    · refine stays hp move.journal fun i' c' o' j hl logged hj htx owing => ?_
      cases hl
      obtain ⟨rfl, rfl⟩ := owing.unique alive
      cases hd : Debt.next .owing op r with
      | owing => exact hd ▸ alive'
      | clear =>
        refine absurd (htx ▸ pending) (Debt.settles sound hgl allowed hj he hd fun status hop hf => ?_)
        subst hop hf
        exact (hc.2 i txId logged hp).2 o' status k (htx ▸ hi) rfl
    · refine ⟨i, o, j, logged, hj, htx, ?_⟩
      cases r with
      | ok _ => exact alive'
      | error e =>
        by_cases h2 : e = .p2002
        · subst h2
          exact absurd rfl hs
        · exact (if_neg h2 : Debt.next p (.prisma (.walletRequestCreate j.pending)) (.error e) = _) ▸ alive'

/-- In every run in which no handler dies while the row it has inserted is
pending, no row is pending when no handler of its request is in progress. -/
theorem no_request_stays_pending {s t : State} (hq : Quiet s)
    (hp : ∀ txId, ¬ s.shared.Pending txId) (h : Reach Recoverable s t) (txId : String)
    (hfin : ∀ th ∈ t.threads, th.origin.job?.map Job.txId = some txId → th.prog.finished = true)
    (r : WalletRequest) (hr : t.shared.db.walletRequests.find? txId = some r) :
    r.status = .success ∨ r.status = .failed := by
  obtain ⟨g, ht, owed⟩ := Machine.Tracks.invariant (service_debts _) (.of_nil hq.threads)
    (fun txId hn => absurd hn (hp txId) : Owed s _)
    (fun u g l v g' hc hu hI hf => owed_step hc.1 hc.2 hu hI hf) (Reach.knowing_sound (fun _ _ hc => hc.1) hq h)
  cases hs : r.status with
  | success => exact .inl rfl
  | failed => exact .inr rfl
  | pending =>
    obtain ⟨i, o, j, -, hj, rfl, q, hi, -, hw⟩ := owed txId ⟨r, hr, hs⟩
    have hdone := hfin _ (List.mem_of_getElem? hi) (by rw [hj]; rfl)
    cases q with
    | call op k => cases hdone
    | ret res => cases hw (by rw [hj]; rfl)

/-- A deposit whose handler dies after `n` calls, and is delivered again. -/
def depositRedelivered (n : Nat) : List Step :=
  let deposit : FundWalletDto := ⟨1, 1, "USD", 10, "a"⟩
  let message : Message := ⟨.walletFunding, .job (.funding deposit), none, 1⟩
  .start (.http 1 (.createWallet ⟨1, "USD", "w"⟩)) :: calls 0 9 ++
  .start (.http 1 (.fundWallet deposit)) :: calls 1 4 ++
  .start (.delivery message) :: calls 2 n ++ [.kill 2, .env (.requeue message)] ++
  [.start (.delivery message)]

/-- No call fails, and no thread dies that has inserted a row. -/
def diesEarly (s : State) (l : Step) : Bool :=
  l.ofWallets && match l with
    | .kill i => s.shared.journal.all fun e => e.thread ≠ i
    | .run _ .fail => false
    | _ => true

theorem recoverable_of_diesEarly {s : State} {l : Step} (h : diesEarly s l = true) :
    Recoverable s l := by
  obtain ⟨hw, h⟩ := (Bool.and_eq_true _ _).mp h
  refine ⟨hw, fun i txId logged _ => ⟨fun hl => ?_, fun o status k _ hl => ?_⟩⟩
  · subst hl
    obtain ⟨e, he, hi, -⟩ := logged
    have := List.all_eq_true.mp h e he
    exact absurd hi (of_decide_eq_true this)
  · subst hl
    cases h

def ServiceThread.crashed (th : ServiceThread) : Bool :=
  match th.prog with
  | .ret (.error .crashed) => true
  | _ => false

theorem ServiceThread.crashed_eq_true {th : ServiceThread} (h : th.crashed = true) :
    th.prog = .ret (.error .crashed) := by
  unfold crashed at h
  split at h
  · assumption
  · cases h

/-- The message whose delivery has returned. -/
def ServiceThread.handled? (th : ServiceThread) : Option Message :=
  match th.origin, th.prog with
  | .delivery m, .ret (.ok .done) => some m
  | _, _ => none

theorem ServiceThread.handled?_eq_some {th : ServiceThread} {m : Message}
    (h : th.handled? = some m) : th.origin = .delivery m ∧ th.prog = .ret (.ok .done) := by
  unfold handled? at h
  split at h
  · next ho hp => cases h; exact ⟨ho, hp⟩
  · cases h

theorem State.empty_nothing_pending (txId : String) : ¬ State.empty.shared.Pending txId := by
  rintro ⟨r, hr, -⟩
  cases hr

theorem no_request_stays_pending_redelivered : ∃ t, Reach Recoverable State.empty t ∧
    (∃ th ∈ t.threads, th.prog = .ret (.error .crashed)) ∧
    ∃ r, t.shared.db.walletRequests.find? "a" = some r ∧ (r.status = .success ∨ r.status = .failed) := by
  have h : (service.runsIf .crashed diesEarly (depositRedelivered 1 ++ calls 3 13) State.empty).any
      (fun t => (t.threads[2]?.any ServiceThread.crashed) ∧
        (t.threads.all fun th => th.origin.job?.map Job.txId = some "a" → th.prog.finished) ∧
        (t.shared.db.walletRequests.find? "a").isSome) = true := by decide +kernel
  obtain ⟨t, ht, hp⟩ := Option.any_eq_true _ _ |>.mp h
  obtain ⟨hcrash, hfin, hrow⟩ := of_decide_eq_true hp
  have reach := Machine.reach_of_runsIf (fun _ _ => recoverable_of_diesEarly) ht
  obtain ⟨th, hi, hc⟩ := Option.any_eq_true _ _ |>.mp hcrash
  obtain ⟨r, hr⟩ := Option.isSome_iff_exists.mp hrow
  refine ⟨t, reach, ⟨th, List.mem_of_getElem? hi, ServiceThread.crashed_eq_true hc⟩, r, hr, ?_⟩
  refine no_request_stays_pending State.empty_quiet State.empty_nothing_pending reach "a"
    (fun th hth hj => ?_) r hr
  exact of_decide_eq_true (List.all_eq_true.mp hfin th hth) hj

/-- The handler dies after its pre-log. Its message is delivered again and
handled to the end, and the row still says pending. -/
theorem crashed_deposit_stays_pending : ∃ t, Reach WalletRun State.empty t ∧
    t.shared.broker.about "a" = [] ∧ (∀ th ∈ t.threads, th.prog.finished = true) ∧
    (∀ m ∈ t.shared.broker.unacked,
      ∃ th ∈ t.threads, th.origin = .delivery m ∧ th.prog = .ret (.ok .done)) ∧
    t.shared.Pending "a" := by
  have h : ((runSteps (depositRedelivered 2 ++ calls 3 2) State.empty).any fun t =>
      t.shared.broker.about "a" = [] ∧ (t.threads.all fun th => th.prog.finished) ∧
      (t.shared.broker.unacked.all fun m =>
        t.threads.any fun th => ServiceThread.handled? th = some m) ∧
      (t.shared.db.walletRequests.find? "a").any fun r => r.status = .pending) = true := by
    decide +kernel
  obtain ⟨t, ht, hp⟩ := runSteps_any h
  obtain ⟨hready, hfin, hmsgs, hrow⟩ := of_decide_eq_true hp
  refine ⟨t, reach_of_runSteps rfl ht, hready, by simpa using hfin, fun m hm => ?_, ?_⟩
  · obtain ⟨th, hth, hm⟩ := List.any_eq_true.mp (List.all_eq_true.mp hmsgs m hm)
    exact ⟨th, hth, ServiceThread.handled?_eq_some (of_decide_eq_true hm)⟩
  · simpa [Shared.Pending, Option.any_eq_true] using hrow

end Pactic
