import Pactic.Transactions.Pages
import Pactic.Users.Accounts

/-! # Pages of a service that goes on

A client reads one page after the other while requests and jobs go on. Their
rows come on top and push the others to later pages, so the client may see a
row twice. But as no row is ever removed it misses none of those that were
there when it began, as long as the boundaries it met were cuts. -/
namespace Pactic
open Keyed Paging Resumption TransactionsService

/-- The columns the database adds to the rows of a table, in the order in which
they are inserted. -/
structure Stamps where
  id : Nat → Int
  time : Nat → Nat
  unique : id.Injective

section
variable {α ρ : Type} (st : Stamps)

def Stamps.stamp (row : α → Int → Nat → ρ) (l : List α) : List ρ :=
  l.mapIdx fun i a => row a (st.id i) (st.time i)

theorem Stamps.nodup {row : α → Int → Nat → ρ} {key : ρ → Int} (hk : ∀ a n t, key (row a n t) = n)
    (l : List α) : ((st.stamp row l).map key).Nodup := by
  have ids : (st.stamp row l).map key = (List.range l.length).map st.id := by
    refine List.ext_getElem (by simp [stamp]) fun i hi hi' => ?_
    simp [stamp, hk]
  rw [ids]
  exact List.nodup_range.map st.unique

theorem Stamps.stamp_prefix (row : α → Int → Nat → ρ) {l l' : List α} (h : l <+: l') :
    st.stamp row l <+: st.stamp row l' := by
  obtain ⟨more, rfl⟩ := h
  rw [stamp, stamp, List.mapIdx_append]
  exact List.prefix_append _ _

def Db.transactionRows (db : Db) : Table TransactionRow.id where
  rows := st.stamp (fun t id createdAt => { t with id, createdAt }) db.transactions.rows
  unique := st.nodup (fun _ _ _ => rfl) _

def Db.notificationRows (db : Db) : Table NotificationRow.id where
  rows := st.stamp (fun n id createdAt => { n with id, createdAt, read := false }) db.notifications
  unique := st.nodup (fun _ _ _ => rfl) _

def Db.loginLogRows (db : Db) : Table LoginLogRow.id where
  rows := st.stamp (fun l id loggedInAt => { l with id, loggedInAt }) db.loginLogs
  unique := st.nodup (fun _ _ _ => rfl) _

end

/-! ## Rows are added only -/

/-- Rows are added at the end of the three tables. -/
structure Db.Appends (d d' : Db) : Prop where
  transactions : d.transactions.rows <+: d'.transactions.rows
  notifications : d.notifications <+: d'.notifications
  loginLogs : d.loginLogs <+: d'.loginLogs

theorem Db.Appends.of_eq {d d' : Db} (ht : d'.transactions = d.transactions)
    (hn : d'.notifications = d.notifications) (hl : d'.loginLogs = d.loginLogs) : d.Appends d' where
  transactions := ht ▸ List.prefix_rfl
  notifications := hn ▸ List.prefix_rfl
  loginLogs := hl ▸ List.prefix_rfl

theorem Db.Appends.refl (d : Db) : d.Appends d := .of_eq rfl rfl rfl

theorem Db.Appends.trans {d d' d'' : Db} (h : d.Appends d') (h' : d'.Appends d'') : d.Appends d'' where
  transactions := h.transactions.trans h'.transactions
  notifications := h.notifications.trans h'.notifications
  loginLogs := h.loginLogs.trans h'.loginLogs

theorem Db.Appends.stamped {d d' : Db} (h : d.Appends d') (st : Stamps) :
    (d.transactionRows st).rows.Sublist (d'.transactionRows st).rows ∧
    (d.notificationRows st).rows.Sublist (d'.notificationRows st).rows ∧
    (d.loginLogRows st).rows.Sublist (d'.loginLogRows st).rows := by
  dsimp only [transactionRows, notificationRows, loginLogRows]
  exact ⟨(st.stamp_prefix _ h.transactions).sublist, (st.stamp_prefix _ h.notifications).sublist,
    (st.stamp_prefix _ h.loginLogs).sublist⟩

section
variable {s t u : State} {l : Step} {i : Nat} {o : Origin} {sh sh' : Shared}

/-- No call but a profile update takes a row away or changes one. -/
theorem exec_appends {op : Op} {c r} (allowed : o.AllowsAccounts op)
    (h : exec c i o op sh = some (sh', r)) : sh.db.Appends sh'.db := by
  obtain ⟨ledger, notes, logs⟩ := exec_entries_of_columns (fun id d hd => by
    subst hd
    obtain ⟨-, now, he⟩ := allowed
    cases he
    exact ⟨rfl, rfl⟩) h
  refine ⟨ledger, ?_, ?_⟩
  · rcases notes with same | ⟨n, -, added⟩
    · exact same ▸ List.prefix_rfl
    · exact added ▸ List.prefix_append _ _
  · rcases logs with same | ⟨l, -, added⟩
    · exact same ▸ List.prefix_rfl
    · exact added ▸ List.prefix_append _ _

theorem Reach.appends_step (hs : s.threads = []) (h : Reach NoProfileUpdate s t)
    (hst : step t l = some u) : t.shared.db.Appends u.shared.db := by
  obtain ⟨g, ht, -⟩ := Machine.Tracks.invariant (I := fun _ _ => True)
    (service_accountability fun _ _ => id) (.of_nil hs) trivial (fun _ _ _ _ _ _ _ _ _ => trivial) h
  cases Machine.step_fires hst with
  | start ha =>
    have same := Origin.accept_db ha
    exact same ▸ .refl _
  | env he =>
    obtain ⟨ledger, notes, logs⟩ := EnvStep.run_entries he
    exact .of_eq ledger notes logs
  | kill _ => exact .of_eq rfl rfl rfl
  | run hi he =>
    obtain ⟨p, -, allowed, -⟩ := ht.called hi
    exact exec_appends allowed he

theorem Reach.appends (hs : s.threads = []) (h : Reach NoProfileUpdate s t)
    (h' : Reach NoProfileUpdate t u) : t.shared.db.Appends u.shared.db := by
  induction h' with
  | refl => exact .refl _
  | tail hr _ hst ih => exact ih.trans (Reach.appends_step hs (h.trans hr) hst)

end

/-! ## Reading page after page -/

/-- What a client gets that asks for page `k + 1` when the rows are `rows k`. It
gets every page, and it has seen all the rows of the beginning when it has read
as many pages as the last one tells of. -/
structure Walk {ρ : Type} (key : ρ → Nat) (rows : Nat → List ρ)
    (pages : Nat → Except Err (Page ρ)) : Prop where
  answered : ∀ k, ∃ p, pages k = .ok p ∧ p.page = k + 1 ∧ ∀ r ∈ p.items, r ∈ rows k
  complete : ∀ n p, pages n = .ok p → p.totalPages ≤ n + 1 →
    (∀ k < n, Cut key (rows k) ((k + 1) * 10)) →
      ∀ r ∈ rows 0, ∃ k ≤ n, ∃ p, pages k = .ok p ∧ r ∈ p.items

section
variable {ρ : Type} {key : ρ → Nat}

/-- The numbers the client prints are the ones the controller reads. -/
theorem getPage_toString (fetch : Int → Nat → Page ρ) (u : Int) (k : Nat) :
    TransactionsController.getPage fetch (some (toString u)) (some (toString (k + 1))) u =
      .ok (fetch u (k + 1)) := by
  have page : JavaScript.parseInt (toString (k + 1)) = some ((k + 1 : Nat) : Int) :=
    JavaScript.parseInt_toString (k + 1 : Nat)
  have first : max ((k + 1 : Nat) : Int) 1 = (k + 1 : Nat) := by omega
  simp only [TransactionsController.getPage, Option.getD_some, JavaScript.parseInt_toString, page,
    Option.map_some, first, if_true, Int.toNat_natCast]

theorem Walk.of_grow {u : Int} {rowsOf : Nat → Int → List ρ}
    (grow : ∀ k, (rowsOf k u).Sublist (rowsOf (k + 1) u))
    (found : ∀ k v, Arrangement key (rowsOf k v)) :
    Walk key (rowsOf · u) fun k => TransactionsController.getPage
      (fun v => paginate (found k v)) (some (toString u)) (some (toString (k + 1))) u where
  answered k := by
    refine ⟨_, getPage_toString _ u k, rfl, fun r hr => ?_⟩
    exact (found k u).perm.mem_iff.mp (List.mem_of_mem_drop (List.mem_of_mem_take hr))
  complete n p hp last cut r hr := by
    rw [getPage_toString] at hp
    cases hp
    have whole : (rowsOf n u).length ≤ (n + 1) * 10 :=
      (le_totalPages (found n u) (n + 1)).trans (Nat.mul_le_mul_right _ last)
    obtain ⟨k, hk, shown⟩ := walk_complete (fun k => found k u) grow cut whole hr
    exact ⟨k, hk, _, getPage_toString _ u k, shown⟩

end

/-- A client that reads its pages one after the other, each at a later state of
a run, gets all of them; when it comes to the last it has seen every row that was
there when it read the first, if every boundary it met was a cut. -/
theorem page_walks_show_every_row {s : State} (hs : s.threads = []) {walk : Nat → State}
    (first : Reach NoProfileUpdate s (walk 0))
    (next : ∀ k, Reach NoProfileUpdate (walk k) (walk (k + 1))) (st : Stamps) (u : Int) :
    (∀ found : ∀ k v, Arrangement TransactionRow.createdAt
        (transactionsOf v ((walk k).shared.db.transactionRows st)),
      Walk TransactionRow.createdAt
        (fun k => transactionsOf u ((walk k).shared.db.transactionRows st))
        fun k => TransactionsController.getUserTransactions _ (found k)
          (some (toString u)) (some (toString (k + 1))) u) ∧
    (∀ found : ∀ k v, Arrangement NotificationRow.createdAt
        (notificationsOf v ((walk k).shared.db.notificationRows st)),
      Walk NotificationRow.createdAt
        (fun k => notificationsOf u ((walk k).shared.db.notificationRows st))
        fun k => TransactionsController.getUserNotifications _ (found k)
          (some (toString u)) (some (toString (k + 1))) u) ∧
    ∀ found : ∀ k v, Arrangement LoginLogRow.loggedInAt
        (loginLogsOf v ((walk k).shared.db.loginLogRows st)),
      Walk LoginLogRow.loggedInAt
        (fun k => loginLogsOf u ((walk k).shared.db.loginLogRows st))
        fun k => TransactionsController.getUserLoginLogs _ (found k)
          (some (toString u)) (some (toString (k + 1))) u := by
  have reached (k : Nat) : Reach NoProfileUpdate s (walk k) := by
    induction k with
    | zero => exact first
    | succ k ih => exact ih.trans (next k)
  have grow (k : Nat) := (Reach.appends hs (reached k) (next k)).stamped st
  refine ⟨fun found => ?_, fun found => ?_, fun found => ?_⟩
  · exact .of_grow (fun k => (grow k).1.filter _) found
  · exact .of_grow (fun k => (grow k).2.1.filter _) found
  · exact .of_grow (fun k => (grow k).2.2.filter _) found

/-- User 1 has logged in eleven times, and once more just now. -/
def elevenLogins : State := { State.empty with
  shared.db.loginLogs := List.replicate 11 ⟨some 1, "::1", "curl", ""⟩
  shared.broker.ready := [⟨.loginLogs, .login ⟨some 1, "ada@a", "::1", "curl", none, true⟩, none, 0⟩] }

/-- The last login is recorded. -/
def twelfthLogin : List Step :=
  .start (.delivery ⟨.loginLogs, .login ⟨some 1, "ada@a", "::1", "curl", none, true⟩, none, 0⟩) ::
    calls 0 1

/-- One row a second. -/
def Stamps.inOrder : Stamps := ⟨fun i => i, fun i => i, fun _ _ h => Int.ofNat.inj h⟩

/-- The first page is read before the login is recorded, the others after it. -/
def readBetween (t : State) : Nat → State
  | 0 => elevenLogins
  | _ + 1 => t

theorem page_walks_show_every_row_logins : ∃ t, runSteps twelfthLogin elevenLogins = some t ∧
    t.shared.db.loginLogs.length = 12 ∧ Walk LoginLogRow.loggedInAt
      (fun k => loginLogsOf 1 ((readBetween t k).shared.db.loginLogRows .inOrder))
      fun k => TransactionsController.getUserLoginLogs
        ((readBetween t k).shared.db.loginLogRows .inOrder) (fun v => .sort _ (loginLogsOf v _))
        (some (toString (1 : Int))) (some (toString (k + 1))) 1 := by
  have h : (runSteps twelfthLogin elevenLogins).any (fun t =>
      t.shared.db.loginLogs.length = 12) = true := by decide +kernel
  obtain ⟨t, ht, len⟩ := runSteps_any h
  have next (k : Nat) : Reach NoProfileUpdate (readBetween t k) (readBetween t (k + 1)) := by
    cases k with
    | zero => exact reach_of_sparesProfiles rfl ht
    | succ k => exact .refl
  exact ⟨t, ht, of_decide_eq_true len,
    (page_walks_show_every_row rfl .refl next .inOrder 1).2.2 fun k v => .sort _ (loginLogsOf v _)⟩

end Pactic
