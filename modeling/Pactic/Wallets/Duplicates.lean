import Pactic.Wallets.Recovery

/-! # Duplicate deliveries

A handler that finds the row of its request there leaves it alone. One whose
Redis check or pre-log fails in another way cannot tell whether there is a row,
and its catch block marks the row failed by the txId, whoever inserted it. -/
namespace Pactic
open Keyed Resumption

def Shared.status? (sh : Shared) (txId : String) : Option Status :=
  (sh.db.walletRequests.find? txId).map WalletRequest.status

/-- There is no row of this request that could still be marked failed. -/
def Shared.Moot (sh : Shared) (txId : String) : Prop :=
  sh.status? txId = none ∨ sh.status? txId = some .failed

/-- Thread `i` handles a job with this txId and has not inserted its row. -/
def State.Outsider (s : State) (i : Nat) (txId : String) : Prop :=
  (s.threads[i]?.bind fun th => th.origin.job?.map Job.txId) = some txId ∧ ¬ s.shared.LoggedBy i txId

/-- The next call of thread `i`. -/
def State.Next (s : State) (i : Nat) (op : Op) : Prop :=
  ∃ o k, s.threads[i]? = some ⟨o, .call op k⟩

/-- The calls of a handler that has not got the row of its request: the Redis
check and the pre-log. -/
def Op.Checks (txId : String) : Op → Prop
  | .redis (.get (.walletRequest t)) | .redis (.del (.walletRequest t)) => t = txId
  | .prisma (.walletRequestCreate r) => r.txId = txId
  | _ => False

/-- A handler's Redis check or pre-log fails only if its request has no row to
be marked failed, and the request gets none before the handler's catch block has
updated it. -/
structure ChecksHold (s : State) (l : Step) : Prop where
  check : ∀ i c op txId, l = .run i c → (∀ a, c ≠ .ok a) → s.Next i op → op.Checks txId →
    s.Outsider i txId → s.shared.Moot txId
  update : ∀ i txId status u, s.Outsider i txId →
    s.Next i (.prisma (.walletRequestUpdateMany txId status)) → s.shared.Moot txId →
    step s l = some u → u.shared.Moot txId

/-! ## How a handler stands to its row -/

inductive Hold where
  | checking
  | failing     -- a check has failed, the catch block comes next
  | owner
  | done
  deriving DecidableEq

/-- What a handler does after its catch block has reached the database. -/
def Op.aside : Op → Bool
  | .redis (.set _ _) | .rabbit _ => true
  | _ => false

def Hold.Allows (txId : String) : Hold → Op → Prop
  | checking, op => op.Checks txId
  | failing, op => op = .prisma (.walletRequestUpdateMany txId .failed)
  | owner, _ => True
  | done, op => op.aside = true

def Hold.next : Hold → (o : Op) → Except Err o.Res → Hold
  | checking, .prisma (.walletRequestCreate _), .ok _ => .owner
  | checking, .prisma (.walletRequestCreate _), .error e => if e = .p2002 then .checking else .failing
  | checking, _, .error _ => .failing
  | failing, _, _ => .done
  | p, _, _ => p

def holds (o : Origin) : Monitor Op Op.Res Err Hold :=
  ⟨fun p op => ∀ j, o.job? = some j → p.Allows j.txId op, Hold.next⟩

/-- No handler ends before the update of its catch block. -/
def Updated (o : Origin) (_ : Except Err Reply) (p : Hold) : Prop := o.job?.isSome → p ≠ .failing

section
variable {o : Origin} {j : Job} {p : Hold} {α β : Type}

/-- Up to the catch block: what threw there was a check or comes from the owner. -/
def Tried : Except Err α → Hold → Prop
  | .ok _, q => q = .checking ∨ q = .owner
  | .error _, q => q = .failing ∨ q = .owner

/-- Past the catch block. -/
def Marked : Except Err α → Hold → Prop
  | .ok _, q => q ≠ .failing
  | .error _, q => q = .done ∨ q = .owner

theorem owner_keeps {c : Proc α} (h : HandlerCalls c) : (holds o).wp c (fun _ q => q = .owner) .owner :=
  Monitor.wp_of_only _ (fun _ _ => ⟨fun _ _ => trivial, fun _ => rfl⟩) h

theorem done_keeps {c : Proc α} (h : c.Only fun op => op.aside = true) :
    (holds o).wp c (fun _ q => q = .done) .done :=
  Monitor.wp_of_only _ (fun _ hop => ⟨fun _ _ => hop, fun _ => rfl⟩) h

theorem alreadyProcessed_tries (hj : o.job? = some j) :
    (holds o).wp (alreadyProcessed j.txId) (fun r q => match r with
      | .ok _ => q = .checking
      | .error _ => q = .failing) .checking := by
  have mine {op : Op} (h : op.Checks j.txId) : (holds o).allow .checking op := by
    intro j' hj'
    rw [hj] at hj'
    cases hj'
    exact h
  refine (Monitor.wp_perform_bind _ _ _ _ _).mpr ⟨mine rfl, fun cached => ?_, fun e => rfl⟩
  cases cached with
  | none => exact rfl
  | some parsed =>
    dsimp only
    split
    · exact rfl
    · exact (Monitor.wp_perform_bind _ _ _ _ _).mpr ⟨mine rfl, fun _ => rfl, fun e => rfl⟩

theorem preLog_tries (hj : o.job? = some j) (u cur) :
    (holds o).wp (preLog u cur j.txId) (fun r q => match r with
      | .ok mine => q = if mine then .owner else .checking
      | .error _ => q = .failing) .checking := by
  refine (Monitor.wp_tryCatch _ _ _ _ _).mpr ((Monitor.wp_perform_bind _ _ _ _ _).mpr
    ⟨fun j' hj' => ?_, fun _ => rfl, fun e => ?_⟩)
  · rw [hj] at hj'
    cases hj'
    exact rfl
  · dsimp only
    split
    · next he => subst he; exact rfl
    · next he =>
      show Hold.next .checking (.prisma (.walletRequestCreate ⟨u, cur, j.txId, .pending⟩)) (.error e) =
        .failing
      simp only [Hold.next, if_neg he]

theorem guarded_tries {c : Proc Unit} (hj : o.job? = some j) (h : HandlerCalls c) (u cur) :
    (holds o).wp (do
      if ← alreadyProcessed j.txId then pure ()
      else if ← preLog u cur j.txId then c
      else pure ()) Tried .checking := by
  refine (Monitor.wp_bind _ _ _ _ _).mpr
    (Monitor.wp_mono _ (alreadyProcessed_tries hj) fun r q hq => ?_)
  cases r with
  | error e => exact .inl hq
  | ok skip =>
    obtain rfl : q = .checking := hq
    cases skip with
    | true => exact .inl rfl
    | false =>
      refine (Monitor.wp_bind _ _ _ _ _).mpr
        (Monitor.wp_mono _ (preLog_tries hj u cur) fun r q hq => ?_)
      cases r with
      | error e => exact .inl hq
      | ok mine =>
        cases mine with
        | true =>
          obtain rfl : q = .owner := hq
          refine Monitor.wp_mono _ (owner_keeps h) fun r q hq => ?_
          cases r with
          | ok _ => exact .inr hq
          | error _ => exact .inr hq
        | false => exact .inl hq

/-- The catch block updates the row first. -/
theorem markFailed_marks (hj : o.job? = some j) (hp : p = .failing ∨ p = .owner) :
    (holds o).wp (markFailed j.txId) (fun _ q => q = .done ∨ q = .owner) p := by
  rcases hp with rfl | rfl
  · refine (Monitor.wp_bind _ _ _ _ _).mpr ⟨fun j' hj' => ?_, fun r => ?_⟩
    · rw [hj] at hj'
      cases hj'
      exact rfl
    · cases r with
      | ok _ => exact ⟨fun _ _ => rfl, fun _ => .inl rfl⟩
      | error _ => exact .inl rfl
  · exact Monitor.wp_mono _ (owner_keeps (markFailed_calls _)) fun _ _ hq => .inr hq

theorem handler_marks (hj : o.job? = some j) : (holds o).wp j.handler Marked .checking := by
  have settle {c : Proc Unit} {rest : Err → Proc Unit} (h : (holds o).wp c Tried .checking)
      (hr : ∀ e q, q = .failing ∨ q = .owner → (holds o).wp (rest e) Marked q) :
      (holds o).wp (tryCatch c rest) Marked .checking := by
    refine (Monitor.wp_tryCatch _ _ _ _ _).mpr (Monitor.wp_mono _ h fun r q hq => ?_)
    cases r with
    | ok _ =>
      intro hf
      subst hf
      simp [Tried] at hq
    | error e => exact hr e q hq
  have marked {r : Except Err Unit} {q : Hold} (hq : q = .done ∨ q = .owner) : Marked r q := by
    cases r with
    | ok _ =>
      intro hf
      subst hf
      simp at hq
    | error _ => exact hq
  have rethrow (e : Err) (q : Hold) (hq : q = .failing ∨ q = .owner) :
      (holds o).wp (do markFailed j.txId; throw e : Proc Unit) Marked q := by
    refine (Monitor.wp_bind _ _ _ _ _).mpr (Monitor.wp_mono _ (markFailed_marks hj hq) fun r q hq => ?_)
    cases r with
    | ok _ => exact hq
    | error _ => exact hq
  cases j with
  | funding d => exact settle (guarded_tries hj (fund_calls d) _ _) rethrow
  | withdrawal d =>
    exact settle (guarded_tries hj (withdraw_calls d) _ _) fun _ q hq =>
      Monitor.wp_mono _ (markFailed_marks hj hq) fun _ _ => marked
  | transfer d => exact settle (guarded_tries hj (transfer_calls d) _ _) rethrow

theorem consume_marks (hj : o.job? = some j) (m : Message) :
    (holds o).wp (consume m.queue j.handler m) (fun _ q => q ≠ .failing) .checking := by
  refine (Monitor.wp_tryCatch _ _ _ _ _).mpr (Monitor.wp_mono _ (handler_marks hj) fun r q hq => ?_)
  cases r with
  | ok _ => exact hq
  | error e =>
    have retry (queue) : (do
        sendToQueue queue m.data (some (m.attempts + 1))
        call (.rabbit (.ack m)) : Proc Unit).Only fun op => op.aside = true :=
      .bind (.tryCatch (.bind (.perform rfl) fun _ => .perform rfl) fun _ => trivial)
        fun _ => .perform rfl
    have rest {c : Proc Unit} (hc : c.Only fun op => op.aside = true) :
        (holds o).wp c (fun _ q => q ≠ .failing) q := by
      rcases hq with rfl | rfl
      · exact Monitor.wp_mono _ (done_keeps hc) fun _ _ hq => by rw [hq]; decide
      · refine Monitor.wp_mono _
          (Monitor.wp_of_only _ (fun _ _ => ⟨fun _ _ => trivial, fun _ => rfl⟩) hc)
          fun _ _ hq => by rw [hq]; decide
    dsimp only
    split
    · exact rest (retry _)
    · exact rest (retry _)

theorem service_holds (C : State → Step → Prop) :
    Machine.Obeys service holds Updated (fun _ => .checking) C := by
  intro s o sh _ ha
  have free (hj : o.job? = none) : (holds o).wp o.program (Updated o) .checking := by
    refine Monitor.wp_mono _ (Monitor.wp_of_allow _ (fun _ _ j hj' => ?_) _ _) fun _ _ _ hs => ?_
    · rw [hj] at hj'; cases hj'
    · rw [hj] at hs; cases hs
  cases o with
  | http tok r => exact free rfl
  | delivery m =>
    obtain ⟨c, hc, program⟩ := Origin.program_delivery (Origin.accept_delivery ha).2.1
    obtain ⟨handler, rfl, -, hq⟩ := deliver_eq_consume hc
    cases hj : (Origin.delivery m).job? with
    | none => exact free hj
    | some j =>
      obtain ⟨-, rfl⟩ := hq j (Origin.job?_delivery.mp hj)
      show (holds _).wp (Origin.delivery m).program _ _
      rw [program]
      refine (Monitor.wp_bind _ _ _ _ _).mpr (Monitor.wp_mono _ (consume_marks hj m) fun r p hp => ?_)
      cases r with
      | ok _ => exact fun _ => hp
      | error _ => exact fun _ => hp

end

/-! ## What the calls do to the row -/

section
variable {sh sh' : Shared} {i : Nat} {o : Origin} {c : Choice} {txId : String}

theorem Shared.status?_same (h : sh'.db.walletRequests = sh.db.walletRequests) :
    sh'.status? txId = sh.status? txId := by
  rw [Shared.status?, Shared.status?, h]

theorem Shared.Moot.same (h : sh.Moot txId) (hs : sh'.status? txId = sh.status? txId) :
    sh'.Moot txId := by
  rw [Shared.Moot, hs]
  exact h

/-- Marking a moot request failed changes nothing. -/
theorem Shared.Moot.marked (h : sh.Moot txId) :
    (sh.setRequests (setStatus sh.db.walletRequests (txId, .failed))).status? txId = sh.status? txId := by
  unfold Shared.status? Shared.setRequests
  rw [setStatus_find?, if_pos rfl, Option.map_map]
  rcases h with h | h
  · rw [show sh.db.walletRequests.find? txId = none from Option.map_eq_none_iff.mp h]
    rfl
  · obtain ⟨r, hr, hs⟩ := Option.map_eq_some_iff.mp h
    rw [hr, Option.map_some, Option.map_some, hs]
    rfl

theorem exec_aside {op : Op} {r} (hop : op.aside = true) (h : exec c i o op sh = some (sh', r)) :
    sh'.db.walletRequests = sh.db.walletRequests := by
  rcases exec_cases h with ⟨rfl, -⟩ | ⟨a, r₀, hrun, -⟩
  · cases op with
    | tx op => cases hop
    | _ => rfl
  · cases op with
    | redis op => cases hrun; rfl
    | rabbit op => cases hrun; rfl
    | _ => cases hop

/-- A check leaves the row as it is unless the handler gets it; it fails only
where the call does. -/
theorem exec_checks {op : Op} {r} (hop : op.Checks txId) (h : exec c i o op sh = some (sh', r)) :
    (sh'.db.walletRequests = sh.db.walletRequests ∧ Hold.next .checking op r ≠ .owner ∨
      sh'.LoggedBy i txId) ∧ (Hold.next .checking op r = .failing → ∀ a, c ≠ .ok a) := by
  cases op with
  | redis op =>
    have same : sh'.db.walletRequests = sh.db.walletRequests := by
      rcases exec_cases h with ⟨rfl, -⟩ | ⟨a, r₀, hrun, -⟩
      · rfl
      · cases hrun
        rfl
    have answered : Hold.next .checking (.redis op) r = .failing → ∀ a, c ≠ .ok a := by
      intro hf a hc
      subst hc
      cases h
      cases hf
    refine ⟨.inl ⟨same, ?_⟩, answered⟩
    intro owns
    cases r with
    | ok _ => cases owns
    | error _ => cases owns
  | prisma op =>
    cases op with
    | walletRequestCreate row =>
      obtain rfl : row.txId = txId := hop
      have run (a r₀) (hrun : (PrismaOp.walletRequestCreate row).run a i o sh = some (sh', r₀)) :
          sh'.db.walletRequests = sh.db.walletRequests ∧ r₀ = .error .p2002 ∨
            sh'.LoggedBy i row.txId ∧ r₀ = .ok row := by
        simp only [PrismaOp.run] at hrun
        split at hrun
        · cases hrun
          exact .inr ⟨⟨_, List.mem_append_right _ (.head _), rfl, rfl⟩, rfl⟩
        · cases hrun
          exact .inl ⟨rfl, rfl⟩
      constructor
      · rcases exec_cases h with ⟨rfl, rfl⟩ | ⟨a, r₀, hrun, hr⟩
        · exact .inl ⟨rfl, fun owns => by cases owns⟩
        · rcases run a r₀ hrun with ⟨same, rfl⟩ | ⟨logged, -⟩
          · refine .inl ⟨same, ?_⟩
            intro owns
            rcases hr with rfl | rfl
            · cases owns
            · cases owns
          · exact .inr logged
      · intro hf a hc
        subst hc
        rcases run a r h with ⟨-, rfl⟩ | ⟨-, rfl⟩
        · cases hf
        · cases hf
    | _ => cases hop
  | _ => cases hop

end

/-! ## Who owns the row -/

/-- Owners have inserted their rows, and a handler whose check has failed finds
nothing to spoil. -/
structure Faithful (s : State) (g : Machine.Ghost Origin Hold) : Prop where
  owner : ∀ i o j, o.job? = some j → g i = some (o, .owner) → s.shared.LoggedBy i j.txId
  failing : ∀ i o j, o.job? = some j → Machine.Alive holds Updated s.threads g i o .failing →
    s.shared.LoggedBy i j.txId ∨ s.shared.Moot j.txId

section
variable {s t u : State} {l : Step} {g g' : Machine.Ghost Origin Hold} {i : Nat} {o : Origin} {j : Job}

/-- A handler whose check has failed is about to update the row. -/
theorem failing_next (hj : o.job? = some j)
    (h : Machine.Alive holds Updated s.threads g i o .failing) :
    s.Next i (.prisma (.walletRequestUpdateMany j.txId .failed)) := by
  obtain ⟨q, hi, -, hw⟩ := h
  cases q with
  | ret r => exact absurd rfl (hw (by rw [hj]; rfl))
  | call op k =>
    obtain rfl := hw.1 j hj
    exact ⟨o, k, hi⟩

theorem outsider_of_alive {p : Hold} (hj : o.job? = some j)
    (h : Machine.Alive holds Updated s.threads g i o p) (hl : ¬ s.shared.LoggedBy i j.txId) :
    s.Outsider i j.txId := by
  obtain ⟨q, hi, -, -⟩ := h
  refine ⟨?_, hl⟩
  rw [hi, Option.bind_some, hj, Option.map_some]

theorem owner_step (h : Faithful s g)
    (hf : Machine.Follows service .crashed holds (fun _ => .checking) s g l t g')
    (hj : o.job? = some j) (hg : g' i = some (o, .owner)) : t.shared.LoggedBy i j.txId := by
  obtain ⟨es, journal⟩ := step_journal hf.step
  have stays (hg : g i = some (o, .owner)) : t.shared.LoggedBy i j.txId :=
    (h.owner i o j hj hg).more journal
  cases hf with
  | @start o' sh ha hnone =>
    by_cases hi : i = s.threads.length
    · rw [hi, Function.update_self] at hg
      cases hg
    · rw [Function.update_of_ne hi] at hg
      exact stays hg
  | @run k c o' op q sh r p hk hgk allowed he =>
    by_cases hi : i = k
    · subst hi
      rw [Function.update_self] at hg
      simp only [Option.some.injEq, Prod.mk.injEq] at hg
      obtain ⟨rfl, hp⟩ := hg
      cases p with
      | checking =>
        rcases (exec_checks (allowed j hj) he).1 with ⟨-, hne⟩ | logged
        · exact absurd hp hne
        · exact logged
      | failing => cases hp
      | owner => exact stays hgk
      | done => cases hp
    · rw [Function.update_of_ne hi] at hg
      exact stays hg
  | env he => exact stays hg
  | kill hk hgk => exact stays hg

theorem failing_step (hc : ChecksHold s l) (ht : Machine.Tracks .crashed holds Updated s.threads g)
    (h : Faithful s g) (hf : Machine.Follows service .crashed holds (fun _ => .checking) s g l t g')
    (hj : o.job? = some j) (ha : Machine.Alive holds Updated t.threads g' i o .failing) :
    t.shared.LoggedBy i j.txId ∨ t.shared.Moot j.txId := by
  obtain ⟨es, journal⟩ := step_journal hf.step
  rcases hf.alive_cases ht ha with ⟨ha, -⟩ | ⟨-, hp, -⟩ |
    ⟨c, op, k, sh, r, p, rfl, hi, ha₀, allowed, he, rfl, hp⟩ | ⟨-, hend⟩
  · by_cases logged : s.shared.LoggedBy i j.txId
    · exact .inl (logged.more journal)
    · have moot := (h.failing i o j hj ha).resolve_left logged
      exact .inr (hc.update i j.txId .failed t (outsider_of_alive hj ha logged) (failing_next hj ha)
        moot hf.step)
  · cases hp
  · cases p with
    | checking =>
      obtain ⟨effect, failed⟩ := exec_checks (allowed j hj) he
      rcases effect with ⟨same, -⟩ | logged
      · by_cases logged : s.shared.LoggedBy i j.txId
        · exact .inl (logged.more journal)
        · have moot := hc.check i c op j.txId rfl (failed hp.symm) ⟨o, k, hi⟩ (allowed j hj)
            (outsider_of_alive hj ha₀ logged)
          exact .inr (moot.same (Shared.status?_same same))
      · exact .inl logged
    | failing => cases hp
    | owner => cases hp
    | done => cases hp
  · exact absurd rfl (hend (by rw [hj]; rfl))

/-- In every run in which a handler's check fails only where there is nothing to
spoil, no handler that has not inserted the row of its request changes its
status. -/
theorem duplicates_leave_record (hq : Quiet s) (h : Reach ChecksHold s t) (hc : ChecksHold t l)
    (hs : step t l = some u) {i : Nat} {c : Choice} (hl : l = .run i c) {txId : String}
    (hi : u.Outsider i txId) : u.shared.status? txId = t.shared.status? txId := by
  have start : Faithful s fun _ => none := by
    constructor
    · intro i o j _ hg
      cases hg
    · rintro i o j _ ⟨-, -, hg, -⟩
      cases hg
  obtain ⟨g, ht, faithful⟩ := Machine.Tracks.invariant (service_holds _) (.of_nil hq.threads) start
    (fun v g l w g' hc hv hI hf => ⟨fun i o j hj => owner_step hI hf hj,
      fun i o j hj => failing_step hc hv hI hf hj⟩) h
  obtain ⟨g', -, hf⟩ := ht.step (service_holds ChecksHold) hc hs
  subst hl
  obtain ⟨o, op, k, r, p, hth, alive, allowed, he, q, hu, -, -⟩ := hf.alive_moved ht
  obtain ⟨es, journal⟩ := step_journal hs
  obtain ⟨origin, outside⟩ := hi
  rw [hu, Option.bind_some] at origin
  obtain ⟨j, hj, rfl⟩ := Option.map_eq_some_iff.mp origin
  have unlogged (hl : t.shared.LoggedBy i j.txId) : False := outside (hl.more journal)
  cases p with
  | checking =>
    rcases (exec_checks (allowed j hj) he).1 with ⟨same, -⟩ | logged
    · exact Shared.status?_same same
    · exact absurd logged outside
  | failing =>
    obtain rfl := allowed j hj
    have moot := (faithful.failing i o j hj alive).resolve_left unlogged
    rcases exec_cases he with ⟨hsh, -⟩ | ⟨a, r₀, hrun, -⟩
    · rw [hsh]
      rfl
    · have hsh : u.shared =
          t.shared.setRequests (setStatus t.shared.db.walletRequests (j.txId, .failed)) :=
        (congrArg Prod.fst (Option.some.inj hrun)).symm
      rw [hsh]
      exact moot.marked
  | owner => exact (unlogged (faithful.owner i o j hj alive.choose_spec.2.1)).elim
  | done => exact Shared.status?_same (exec_aside (allowed j hj) he)

end

/-! ## A deposit that is delivered twice -/

instance (sh : Shared) (i : Nat) (txId : String) : Decidable (sh.LoggedBy i txId) :=
  inferInstanceAs (Decidable (∃ e ∈ sh.journal, _))

instance (s : State) (i : Nat) (txId : String) : Decidable (s.Outsider i txId) :=
  inferInstanceAs (Decidable (_ ∧ ¬ _))

/-- The second delivery begins when the first one has inserted the row. -/
def deliveredTwice : List Step :=
  let deposit : FundWalletDto := ⟨1, 1, "USD", 10, "a"⟩
  let message : Message := ⟨.walletFunding, .job (.funding deposit), none, 0⟩
  .start (.http 1 (.fundWallet deposit)) :: calls 0 4 ++
  .start (.delivery message) :: calls 1 2 ++
  [.env (.redeliver message), .start (.delivery message)]

def ServiceThread.updates (th : ServiceThread) : Bool :=
  match th.prog with
  | .call (.prisma (.walletRequestUpdateMany _ _)) _ => true
  | _ => false

/-- Every call is answered, and no catch block is on its way. -/
def answersOnly (s : State) : Step → Bool
  | .run _ (.ok _) | .start _ | .env _ => s.threads.all fun th => !ServiceThread.updates th
  | _ => false

theorem checksHold_of_answersOnly {s : State} {l : Step} (h : answersOnly s l = true) :
    ChecksHold s l := by
  have quiet : s.threads.all (fun th => !ServiceThread.updates th) = true := by
    unfold answersOnly at h
    split at h
    · exact h
    · exact h
    · exact h
    · cases h
  refine ⟨fun i c op txId hl hc _ _ _ => ?_, fun i txId status u _ hn => ?_⟩
  · subst hl
    cases c with
    | ok a => exact absurd rfl (hc a)
    | fail => cases h
    | failAfter a => cases h
  · obtain ⟨o, k, hi⟩ := hn
    have := List.all_eq_true.mp quiet _ (List.mem_of_getElem? hi)
    cases this

theorem duplicates_leave_record_twice : ∃ t u, Reach ChecksHold State.empty t ∧
    step t (.run 2 (.ok {})) = some u ∧ u.shared.status? "a" = t.shared.status? "a" := by
  have h : ((service.runsIf .crashed answersOnly (deliveredTwice ++ calls 2 1) State.empty).bind
      fun t => if answersOnly t (.run 2 (.ok {})) then
        (step t (.run 2 (.ok {}))).map fun u => decide (u.Outsider 2 "a") else none) = some true := by
    decide +kernel
  obtain ⟨t, ht, h⟩ := Option.bind_eq_some_iff.mp h
  split at h
  · next hc =>
    obtain ⟨u, hu, ho⟩ := Option.map_eq_some_iff.mp h
    have reach := Machine.reach_of_runsIf (fun _ _ => checksHold_of_answersOnly) ht
    exact ⟨t, u, reach, hu, duplicates_leave_record State.empty_quiet reach
      (checksHold_of_answersOnly hc) hu rfl (of_decide_eq_true ho)⟩
  · cases h

/-- Redis fails for the second delivery, whose catch block marks the row failed
that the first one has inserted. -/
theorem duplicate_marks_record_failed : ∃ t u, Reach WalletRun State.empty t ∧
    step t (.run 2 (.ok {})) = some u ∧ u.Outsider 2 "a" ∧
    t.shared.status? "a" = some .pending ∧ u.shared.status? "a" = some .failed := by
  have h : ((runSteps (deliveredTwice ++ [.run 2 .fail]) State.empty).bind fun t =>
      (step t (.run 2 (.ok {}))).map fun u => decide (u.Outsider 2 "a" ∧
        t.shared.status? "a" = some .pending ∧ u.shared.status? "a" = some .failed)) = some true := by
    decide +kernel
  obtain ⟨t, u, ht, hu, hp⟩ := runSteps_step h
  exact ⟨t, u, reach_of_runSteps rfl ht, hu, of_decide_eq_true hp⟩

end Pactic
