import Pactic.Book.Ledger
import Pactic.Protocol.Scope
import Pactic.Wallets.Commits
import Pactic.Wallets.Lists

/-! # Whose data a thread changes

A request works for the user of its token, a delivery for those its message
names. Whatever else runs, a cached entry is changed for nobody else, and in the
runs of the wallet endpoints and processors no row is. -/
namespace Pactic
open Keyed Resumption

/-- What an origin is for. -/
def Origin.scope : Origin → Scope
  | http tok r => r.scope tok
  | delivery m => m.data.scope

/-- A call that stays in the scope of its origin, or settles its delivery. -/
def Origin.Confines (o : Origin) (op : Op) : Prop :=
  op.KeepsTo o.scope ∨ ∃ m, o = .delivery m ∧
    (op = .rabbit (.ack m) ∨ ∃ q x, op = .rabbit (.sendToQueue q m.data x))

theorem consume_confined {q : Queue} {m : Message} {handler : Proc Unit}
    (h : Scoped m.data.scope handler) :
    (consume q handler m).Only (Origin.delivery m).Confines := by
  have again (q : Queue) : (do
      sendToQueue q m.data (some (m.attempts + 1))
      call (.rabbit (.ack m)) : Proc Unit).Only (Origin.delivery m).Confines := by
    have asserted : (Origin.delivery m).Confines (.rabbit (.assertQueue q)) := .inl trivial
    refine .bind (.tryCatch (.bind (.perform asserted) fun _ => .perform ?_) fun _ => trivial)
      fun _ => .perform ?_
    · exact .inr ⟨m, rfl, .inr ⟨q, _, rfl⟩⟩
    · exact .inr ⟨m, rfl, .inl rfl⟩
  refine .tryCatch (h.mono fun op => .inl) fun _ => ?_
  split
  · exact again _
  · exact again _

theorem Origin.program_confined {o : Origin} {sh sh' : Shared} (ha : o.accept sh = some sh') :
    o.program.Only o.Confines := by
  cases o with
  | http tok r => exact (Request.program_scoped tok r).mono fun op => .inl
  | delivery m =>
    obtain ⟨c, hc, program⟩ := Origin.program_delivery (Origin.accept_delivery ha).2.1
    obtain ⟨handler, rfl, hh⟩ := deliver_scoped hc
    rw [program]
    exact .bind (consume_confined hh) fun _ => trivial

section
variable {s t u : State} {l : Step} {i : Nat} {o : Origin} {sh sh' : Shared} {v : Int}

theorem Reach.confined {C : State → Step → Prop} (hs : s.threads = []) (h : Reach C s t) :
    ∀ th ∈ t.threads, th.prog.Only th.origin.Confines :=
  Machine.Reach.only (fun _ _ _ => Origin.program_confined) (fun th hth => by rw [hs] at hth; cases hth) h

/-! ## The cache -/

/-- A call changes the entries of its own scope only. -/
theorem exec_entry {op : Op} {c : Choice} {r} {k : CacheKey} (kept : o.Confines op)
    (h : exec c i o op sh = some (sh', r)) : sh'.redis k = sh.redis k ∨ o.scope.caches k := by
  rcases exec_redis h with same | ⟨op', rfl, -, hr⟩
  · exact .inl (by rw [same])
  have mine : (Op.redis op').KeepsTo o.scope := by
    rcases kept with kept | ⟨m, -, acked | ⟨q, x, sent⟩⟩
    · exact kept
    · cases acked
    · cases sent
  rw [hr]
  cases op' with
  | get k' => exact .inl rfl
  | set k' x =>
    by_cases hk : k = k'
    · subst hk
      exact .inr mine
    · exact .inl (Function.update_of_ne hk _ _)
  | del k' =>
    by_cases hk : k = k'
    · subst hk
      exact .inr mine
    · exact .inl (Function.update_of_ne hk _ _)

/-- In every run of the service an entry of the cache changes only when it
expires, or by a call of a request or a delivery whose scope has its key. -/
theorem entries_change_in_scope (hs : s.threads = []) (h : Reach (fun _ _ => True) s t)
    (hst : step t l = some u) {k : CacheKey} (changed : u.shared.redis k ≠ t.shared.redis k) :
    l = .env (.expire k) ∨
      ∃ i c o p, l = .run i c ∧ t.threads[i]? = some ⟨o, p⟩ ∧ o.scope.caches k := by
  have confined := h.confined hs
  cases Machine.step_fires hst with
  | start ha => exact absurd (congrFun (accept_redis ha) k) changed
  | kill _ => exact absurd rfl changed
  | @env e sh he =>
    cases e with
    | expire k' =>
      cases he
      by_cases hk : k = k'
      · exact .inl (by rw [hk])
      · exact absurd (Function.update_of_ne hk _ _) changed
    | tick => cases he; exact absurd rfl changed
    | _ =>
      simp only [service, EnvStep.run] at he
      split at he <;> cases he
      exact absurd rfl changed
  | @run i c o op next sh r hi he =>
    have kept := (confined _ (List.mem_of_getElem? hi)).1
    rcases exec_entry kept he with same | mine
    · exact absurd same changed
    · exact .inr ⟨i, c, o, _, rfl, hi, mine⟩

/-- After its commit a transfer writes the entry of its txId. -/
theorem entries_change_in_scope_transfer : ∃ t u,
    runSteps (transferPrepared 3 ++ calls 5 1) State.empty = some t ∧
    step t (.run 5 (.ok {})) = some u ∧
    (Label.run 5 (.ok {}) = (.env (.expire (.walletRequest "b")) : Step) ∨
      ∃ i c o p, (Label.run 5 (.ok {}) : Step) = .run i c ∧ t.threads[i]? = some ⟨o, p⟩ ∧
        o.scope.caches (.walletRequest "b")) := by
  have h : ((runSteps (transferPrepared 3 ++ calls 5 1) State.empty).bind fun t =>
      (step t (.run 5 (.ok {}))).map fun u =>
        decide (u.shared.redis (.walletRequest "b") ≠ t.shared.redis (.walletRequest "b"))) =
      some true := by
    decide +kernel
  obtain ⟨t, u, ht, hu, changed⟩ := runSteps_step h
  have reach : Reach (fun _ _ => True) State.empty t :=
    Machine.reach_of_runs (fun _ _ _ => trivial) ht
  exact ⟨t, u, ht, hu, entries_change_in_scope rfl reach hu (of_decide_eq_true changed)⟩

/-! ## The rows -/

def CacheKey.owner? : CacheKey → Option Int
  | walletRequest _ => none
  | userWallets v => some v
  | userTransactions v => some v
  | userProfile v => some v

/-- The rows of a user are the same as before, and so are the entries that have
not expired. -/
structure Undisturbed (v : Int) (sh sh' : Shared) : Prop where
  wallets : sh'.walletsOf v = sh.walletsOf v
  ledger : sh'.db.transactions.rows.filter (fun t => t.userId = v) =
    sh.db.transactions.rows.filter fun t => t.userId = v
  notifications : sh'.db.notifications.filter (fun n => n.userId = v) =
    sh.db.notifications.filter fun n => n.userId = v
  entries : ∀ k : CacheKey, k.owner? = some v → ∀ x, sh'.redis k = some x → sh.redis k = some x

theorem Undisturbed.of_db (hdb : sh'.db = sh.db)
    (entries : ∀ k x, sh'.redis k = some x → sh.redis k = some x) : Undisturbed v sh sh' where
  wallets := by rw [Shared.walletsOf, hdb, Shared.walletsOf]
  ledger := by rw [hdb]
  notifications := by rw [hdb]
  entries k _ := entries k

theorem Undisturbed.refl (sh : Shared) : Undisturbed v sh sh := .of_db rfl fun _ _ h => h

theorem Undisturbed.trans {sh'' : Shared} (h : Undisturbed v sh sh') (h' : Undisturbed v sh' sh'') :
    Undisturbed v sh sh'' where
  wallets := h'.wallets.trans h.wallets
  ledger := h'.ledger.trans h.ledger
  notifications := h'.notifications.trans h.notifications
  entries k hk x hx := h.entries k hk x (h'.entries k hk x hx)

/-- Who may write the entries of a user is for the user. -/
theorem Origin.users_of_caches {k : CacheKey} (hk : k.owner? = some v) (h : o.scope.caches k) :
    o.scope.users v := by
  have delivered (d : Payload) (hd : d.scope.caches k) : d.scope.users v := by
    cases d with
    | job j => cases k <;> cases hk <;> first | exact hd | exact hd.elim
    | notification n => exact hd.elim
    | login l => exact hd.elim
  cases o with
  | http tok r => cases k <;> cases hk <;> first | exact h | exact h.elim
  | delivery m => exact delivered m.data h

theorem Origin.users_of_job {j : Job} (hj : o.job? = some j) (hv : v ∈ j.parties) : o.scope.users v := by
  cases o with
  | http tok r => cases hj
  | delivery m =>
    simp only [job?] at hj
    split at hj
    · next j' hd =>
      cases hj
      show m.data.scope.users v
      rw [hd]
      exact hv
    · cases hj

/-- A commit adds the rows of its job to the ledger, and nothing else does. -/
theorem exec_ledger {p : Local} {g : Threads} {op : Op} {c : Choice} {r} (sound : Sound sh g)
    (hg : g i = some (o, p)) (ha : o.Allows p op) (h : exec c i o op sh = some (sh', r)) :
    sh'.db.transactions.rows = sh.db.transactions.rows ∨ ∃ j, o.job? = some j ∧
      sh'.db.transactions.rows = sh.db.transactions.rows ++ j.rows.map TransactionData.store := by
  have move := exec_move ha h
  generalize p.next op r = p' at move
  cases move with
  | look hs _ _ => exact .inl (by rw [hs.transactions])
  | stop hs _ _ => exact .inl (by rw [hs.transactions])
  | @commit j tx t _ job session opened ledger _ _ =>
    obtain ⟨-, -, -, -, inserted⟩ :=
      Book.apply_eq_some.mp ((sound.session hg job session opened).apply ledger)
    exact .inr ⟨j, job, Table.rows_of_foldlM_insert? inserted⟩
  | _ => exact .inl rfl

/-- A call of a thread that is for others disturbs nobody. -/
theorem exec_undisturbed {p : Local} {g : Threads} {op : Op} {c : Choice} {r} (sound : Sound sh g)
    (hg : g i = some (o, p)) (ha : o.Allows p op) (kept : o.Confines op) (other : ¬ o.scope.users v)
    (h : exec c i o op sh = some (sh', r)) : Undisturbed v sh sh' where
  wallets := by
    rcases exec_walletsOf (u := v) sound hg ha h with same | ⟨-, ⟨cur, rfl⟩ | ⟨-, j, job, leg, hl, rfl⟩⟩
    · exact same
    · refine absurd ?_ other
      rcases kept with mine | ⟨m, -, acked | ⟨q, x, sent⟩⟩
      · exact mine
      · cases acked
      · cases sent
    · exact absurd (Origin.users_of_job job (List.mem_map_of_mem hl)) other
  ledger := by
    rcases exec_ledger sound hg ha h with same | ⟨j, job, added⟩
    · rw [same]
    · have none : (j.rows.map TransactionData.store).filter (fun t => t.userId = v) = [] := by
        refine List.filter_eq_nil_iff.mpr fun t ht hv => other ?_
        obtain ⟨leg, hl, -, hu⟩ := Job.rows_owner ht
        have mine : leg.userId ∈ j.parties := List.mem_map_of_mem hl
        rw [hu, of_decide_eq_true hv] at mine
        exact Origin.users_of_job job mine
      rw [added, List.filter_append, none, List.append_nil]
  notifications := by
    have noUpdate (id d) (hop : op = .prisma (.userUpdate id d)) : False := by
      subst hop
      exact ha
    rcases (exec_entries noUpdate h).2.1 with same | ⟨n, rfl, added⟩
    · rw [same]
    · have none : ¬ n.userId = v := by
        intro hv
        refine other (hv ▸ ?_)
        rcases kept with mine | ⟨m, -, acked | ⟨q, x, sent⟩⟩
        · exact mine
        · cases acked
        · cases sent
      rw [added, List.filter_append]
      simp [none]
  entries k hk x hx := by
    rcases exec_entry (k := k) kept h with same | mine
    · exact same ▸ hx
    · exact absurd (Origin.users_of_caches hk mine) other

/-! ## Among strangers -/

/-- The request neither comes from the user nor sends the user money; the message
is not about the user. -/
def Origin.Ignores : Origin → Int → Prop
  | http tok r, v => tok ≠ v ∧ ∀ b, r = .transferFunds b → b.recipientId ≠ v
  | delivery m, v => ¬ m.data.scope.users v

theorem Origin.Ignores.other (h : o.Ignores v) : ¬ o.scope.users v := by
  cases o with
  | http tok r =>
    intro mine
    exact h.1 mine.symm
  | delivery m => exact h

/-- What such a thread publishes is not about the user. -/
theorem Origin.Ignores.publishes {q data x} (h : o.Ignores v)
    (kept : o.Confines (.rabbit (.sendToQueue q data x))) : ¬ data.scope.users v := by
  rcases kept with ⟨-, -, mine⟩ | ⟨m, rfl, acked | ⟨q', x', sent⟩⟩
  · cases data with
    | job j =>
      cases o with
      | http tok r =>
        obtain ⟨asked, rfl⟩ := mine
        obtain ⟨sender, recipient⟩ := h
        intro party
        cases r with
        | fundWallet b =>
          cases asked
          exact sender (List.mem_singleton.mp party).symm
        | withdrawFromWallet b =>
          cases asked
          exact sender (List.mem_singleton.mp party).symm
        | transferFunds b =>
          cases asked
          rcases List.mem_cons.mp party with rfl | party
          · exact sender rfl
          · exact recipient b rfl (List.mem_singleton.mp party).symm
        | _ => cases asked
      | delivery m =>
        have none : ¬ m.data.scope.jobs j := by cases m.data <;> exact id
        exact absurd mine none
    | notification n =>
      intro told
      replace told : v = n.userId := told
      subst told
      exact h.other mine
    | login l => exact id
  · cases acked
  · cases sent
    exact h

/-- Nothing that runs or waits is about the user. -/
structure Strangers (v : Int) (t : State) : Prop where
  threads : ∀ th ∈ t.threads, th.origin.Ignores v
  messages : ∀ m, t.shared.broker.Holds m → ¬ m.data.scope.users v

/-- A wallet run in which nobody uses the user's token or sends the user money. -/
def StrangersRun (v : Int) (s : State) (l : Step) : Prop :=
  WalletRun s l ∧ ∀ tok r, l = .start (.http tok r) → (Origin.http tok r).Ignores v

theorem Strangers.step (h : Strangers v t) (known : t.Known)
    (confined : ∀ th ∈ t.threads, th.prog.Only th.origin.Confines) (hl : StrangersRun v t l)
    (hst : step t l = some u) : Strangers v u ∧ Undisturbed v t.shared u.shared := by
  obtain ⟨g, tracks, sound⟩ := known
  have threads : ∀ th ∈ u.threads, th.origin.Ignores v := by
    intro th hth
    rcases Machine.step_origin hst hth with ⟨th', hth', same⟩ | ⟨rfl, sh, ha⟩
    · exact same ▸ h.threads th' hth'
    · cases ho : th.origin with
      | http tok r => exact hl.2 tok r (by rw [ho])
      | delivery m =>
        rw [ho] at ha
        exact h.messages m (.inl (Origin.accept_delivery ha).1)
  cases Machine.step_fires hst with
  | start ha =>
    refine ⟨⟨threads, fun m hm => h.messages m (Origin.accept_holds ha m hm)⟩, ?_⟩
    exact .of_db (Origin.accept_db ha) fun k x hx => accept_redis ha ▸ hx
  | @run i c o op next sh r hi he =>
    obtain ⟨p, hg, allowed, -⟩ := tracks.called hi
    have ignores := h.threads _ (List.mem_of_getElem? hi)
    have kept := (confined _ (List.mem_of_getElem? hi)).1
    refine ⟨⟨threads, fun m hm => ?_⟩, exec_undisturbed sound hg allowed kept ignores.other he⟩
    rcases exec_broker he with same | ⟨op', rfl, run⟩
    · exact h.messages m (same ▸ hm)
    · rcases RabbitOp.run_holds (run ▸ hm) with hm | ⟨q, data, x, rfl, rfl⟩
      · exact h.messages m hm
      · exact ignores.publishes kept
  | @env e sh he =>
    refine ⟨⟨threads, fun m hm => h.messages m (EnvStep.run_holds he m hm)⟩, ?_⟩
    obtain ⟨ledger, notes, -⟩ := EnvStep.run_entries he
    have same := (EnvStep.run_same he).wallets
    exact {
      wallets := by rw [Shared.walletsOf, same, Shared.walletsOf]
      ledger := by rw [ledger]
      notifications := by rw [notes]
      entries := fun k _ x hx => env_redis he hx }
  | kill hi => exact ⟨⟨threads, h.messages⟩, .of_db rfl fun k x hx => hx⟩

/-- As long as nobody uses the token of a user or sends the user money, and the
broker has nothing about the user to begin with, the user's wallets, ledger rows
and notifications stay as they are and the cached entries can only expire. -/
theorem strangers_leave_no_trace (hq : Quiet s)
    (hb : ∀ m, s.shared.broker.Holds m → ¬ m.data.scope.users v) (h : Reach (StrangersRun v) s t) :
    Undisturbed v s.shared t.shared := by
  have all : Strangers v t ∧ Undisturbed v s.shared t.shared := by
    have base : Strangers v s := by
      refine ⟨fun th hth => ?_, hb⟩
      rw [hq.threads] at hth
      cases hth
    induction h with
    | refl => exact ⟨base, .refl _⟩
    | tail hr hl hst ih =>
      have known := Reach.sound (fun _ _ => And.left) hq hr
      obtain ⟨strangers, same⟩ := ih.1.step known (Reach.confined hq.threads hr) hl hst
      exact ⟨strangers, ih.2.trans same⟩
  exact all.2

/-- A wallet of user 3, who does nothing. -/
def idleWallet : Wallet := ⟨9, 3, ⟨50000⟩, "USD", 1, 0, none⟩

/-- User 3 has a wallet, which is in the cache, too. -/
def State.bystander : State :=
  { State.empty with
    shared.db.wallets := ⟨[idleWallet], List.nodup_singleton _⟩
    shared.versions := [idleWallet]
    shared.redis := Function.update State.empty.shared.redis (.userWallets 3) (some [idleWallet]) }

/-- The steps of a run in which user 3 takes no part. -/
def Step.passesBy (l : Step) : Bool :=
  l.ofWallets && match l with
    | .start (.http tok (.transferFunds b)) => tok ≠ 3 && b.recipientId ≠ 3
    | .start (.http tok _) => tok ≠ 3
    | _ => true

theorem strangersRun_of_passesBy {l : Step} (h : l.passesBy = true) : StrangersRun 3 s l := by
  obtain ⟨wallets, other⟩ := (Bool.and_eq_true _ _).mp h
  refine ⟨wallets, fun tok r hl => ?_⟩
  subst hl
  cases r with
  | transferFunds b =>
    obtain ⟨sender, recipient⟩ := (Bool.and_eq_true _ _).mp other
    exact ⟨of_decide_eq_true sender, fun b' hb => by cases hb; exact of_decide_eq_true recipient⟩
  | _ => exact ⟨of_decide_eq_true other, fun b' hb => by cases hb⟩

/-- A transfer between two others. -/
theorem strangers_leave_no_trace_transfer : ∃ t : State,
    runSteps (transferPrepared 3 ++ calls 5 1) State.bystander = some t ∧
    t.shared.walletsOf 1 ≠ [] ∧ t.shared.walletsOf 3 = [idleWallet] ∧
    Undisturbed 3 State.bystander.shared t.shared := by
  have h : (runSteps (transferPrepared 3 ++ calls 5 1) State.bystander).any (fun t =>
      decide (t.shared.walletsOf 1 ≠ [] ∧ t.shared.walletsOf 3 = [idleWallet])) = true := by
    decide +kernel
  obtain ⟨t, ht, shown⟩ := runSteps_any h
  have shown := of_decide_eq_true shown
  have passing : (transferPrepared 3 ++ calls 5 1).all Step.passesBy = true := by decide +kernel
  have reach : Reach (StrangersRun 3) State.bystander t := Machine.reach_of_runs
    (fun l hl _ => strangersRun_of_passesBy (List.all_eq_true.mp passing l hl)) ht
  refine ⟨t, ht, shown.1, shown.2, strangers_leave_no_trace ?_ (fun m hm => ?_) reach⟩
  · exact ⟨rfl, fun _ => rfl, fun _ => rfl, rfl, rfl⟩
  · rcases hm with hm | hm | hm <;> cases hm

end

end Pactic
