import Pactic.Protocol.Moves

/-! # Where jobs come from

Every job message in the broker and every delivery of one goes back to a valid
request sent with the payer's own token: the endpoints enqueue the job of their
own request only, and a callback publishes its own payload only. -/
namespace Pactic
open Keyed Resumption

/-- A valid request for this job was sent with the payer's token. -/
def Asked (g : Threads) (j : Job) : Prop :=
  ∃ i tok r p, g i = some (.http tok r, p) ∧ r.Valid ∧ r.job? = some j ∧ tok = j.payer

def Broker.Holds (b : Broker) (m : Message) : Prop := m ∈ b.ready ∨ m ∈ b.unacked ∨ m ∈ b.sent

/-- The jobs of `P` are traced to their requests. -/
structure Traced (P : Job → Prop) (sh : Shared) (g : Threads) : Prop where
  message : ∀ {m j}, sh.broker.Holds m → m.data = .job j → P j → Asked g j
  thread : ∀ {i o p j}, g i = some (o, p) → o.job? = some j → P j → Asked g j
  valid : ∀ {i tok r p}, g i = some (.http tok r, p) → r.Valid

section
variable {sh sh' : Shared} {g : Threads} {i : Nat} {o : Origin} {p p' : Local} {j : Job}
  {P : Job → Prop}

theorem Asked.update (h : Asked g j) (hg : g i = none ∨ ∃ p, g i = some (o, p)) :
    Asked (Function.update g i (some (o, p'))) j := by
  obtain ⟨k, tok, r, q, hk, rest⟩ := h
  by_cases he : k = i
  · subst he
    rcases hg with hg | ⟨p, hg⟩
    · rw [hg] at hk; cases hk
    · rw [hg] at hk; cases hk
      exact ⟨k, tok, r, p', by rw [Function.update_self], rest⟩
  · exact ⟨k, tok, r, q, by rwa [Function.update_of_ne he], rest⟩

/-- The statements outside a session leave the broker, the cache, the sessions
and the locks alone. -/
theorem PrismaOp.run_frame {op : PrismaOp} {a r} (h : op.run a i o sh = some (sh', r)) :
    sh'.broker = sh.broker ∧ sh'.redis = sh.redis ∧ sh'.txs = sh.txs ∧ sh'.locks = sh.locks := by
  cases op with
  | userFindFirst e n =>
    simp only [run] at h
    split at h
    · cases h; exact ⟨rfl, rfl, rfl, rfl⟩
    · obtain ⟨u, -, hu⟩ := Option.map_eq_some_iff.mp h
      cases hu; exact ⟨rfl, rfl, rfl, rfl⟩
  | userUpdate id d =>
    cases d with
    | none => cases h; exact ⟨rfl, rfl, rfl, rfl⟩
    | some d =>
      simp only [run] at h
      repeat' split at h
      all_goals cases h
      all_goals exact ⟨rfl, rfl, rfl, rfl⟩
  | _ =>
    simp only [run] at h
    repeat' split at h
    all_goals cases h
    all_goals exact ⟨rfl, rfl, rfl, rfl⟩

/-- The statements of a session leave the broker, the cache and the users alone. -/
theorem TxOp.run_frame {op : TxOp} {a r} (h : op.run a i o sh = some (sh', r)) :
    sh'.broker = sh.broker ∧ sh'.redis = sh.redis ∧ sh'.db.users = sh.db.users ∧
      ∃ es, sh'.journal = sh.journal ++ es := by
  have same {sh₁ : Shared} (hb : sh₁.broker = sh.broker) (hr : sh₁.redis = sh.redis)
      (hu : sh₁.db.users = sh.db.users) (hj : sh₁.journal = sh.journal) :
      sh₁.broker = sh.broker ∧ sh₁.redis = sh.redis ∧ sh₁.db.users = sh.db.users ∧
        ∃ es, sh₁.journal = sh.journal ++ es := ⟨hb, hr, hu, [], by rw [hj, List.append_nil]⟩
  have write {id v inc nv tx r} (hw : run.write i id v inc nv tx sh = some (sh', r)) :
      sh'.broker = sh.broker ∧ sh'.redis = sh.redis ∧ sh'.db.users = sh.db.users ∧
        ∃ es, sh'.journal = sh.journal ++ es := by
    unfold run.write at hw
    (repeat' split at hw) <;> cases hw <;> exact same rfl rfl rfl rfl
  cases op with
  | walletUpdate id v inc nv =>
    simp only [run] at h
    repeat' split at h
    all_goals first
      | cases h
      | exact write h
  | commit =>
    simp only [run, Option.map_eq_some_iff] at h
    obtain ⟨tx, -, h⟩ := h
    unfold Shared.commit at h
    split at h
    · cases h; exact same rfl rfl rfl rfl
    · dsimp only at h
      split at h
      · cases h; exact ⟨rfl, rfl, rfl, _, rfl⟩
      · cases h; exact same rfl rfl rfl rfl
  | _ =>
    simp only [run] at h
    repeat' split at h
    all_goals cases h
    all_goals exact same rfl rfl rfl rfl

/-- Only the calls of the broker change the broker. -/
theorem exec_broker {c : Choice} {op : Op} {r} (h : exec c i o op sh = some (sh', r)) :
    sh'.broker = sh.broker ∨ ∃ op', op = .rabbit op' ∧ sh'.broker = op'.run sh.broker := by
  rcases exec_cases h with ⟨rfl, -⟩ | ⟨a, r₀, hrun, -⟩
  · cases op with
    | tx op => cases op <;> exact .inl rfl
    | _ => exact .inl rfl
  · cases op with
    | redis op => cases hrun; exact .inl rfl
    | prisma op => exact .inl (PrismaOp.run_frame hrun).1
    | tx op => exact .inl (TxOp.run_frame hrun).1
    | rabbit op => cases hrun; exact .inr ⟨op, rfl, rfl⟩
    | library op => cases hrun; exact .inl rfl

/-- Only the calls of the cache change the cache. -/
theorem exec_redis {c : Choice} {op : Op} {r} (h : exec c i o op sh = some (sh', r)) :
    sh'.redis = sh.redis ∨ ∃ op', op = .redis op' ∧ c ≠ .fail ∧ sh'.redis = (op'.run sh.redis).1 := by
  have answered {a r₀} (hc : c ≠ .fail) (hrun : op.run a i o sh = some (sh', r₀)) :
      sh'.redis = sh.redis ∨
        ∃ op', op = .redis op' ∧ c ≠ .fail ∧ sh'.redis = (op'.run sh.redis).1 := by
    cases op with
    | redis op => cases hrun; exact .inr ⟨op, rfl, hc, rfl⟩
    | prisma op => exact .inl (PrismaOp.run_frame hrun).2.1
    | tx op => exact .inl (TxOp.run_frame hrun).2.1
    | rabbit op => cases hrun; exact .inl rfl
    | library op => cases hrun; exact .inl rfl
  cases c with
  | ok a => exact answered (fun hc => by cases hc) h
  | fail =>
    cases h
    cases op with
    | tx op => cases op <;> exact .inl rfl
    | _ => exact .inl rfl
  | failAfter a =>
    obtain ⟨⟨sh₁, r₀⟩, hrun, he⟩ := Option.map_eq_some_iff.mp h
    cases he
    exact answered (fun hc => by cases hc) hrun

/-- An entry that is set is there, whether or not this is answered. -/
theorem exec_set {key : CacheKey} {v : key.Value} {r} (hc : c ≠ .fail)
    (h : exec c i o (.redis (.set key v)) sh = some (sh', r)) : sh'.redis key = some v := by
  cases c with
  | fail => exact absurd rfl hc
  | ok a => cases h; exact Function.update_self _ _ _
  | failAfter a => cases h; exact Function.update_self _ _ _

/-- An entry that is deleted is gone, whether or not this is answered. -/
theorem exec_del {key : CacheKey} {r} (hc : c ≠ .fail)
    (h : exec c i o (.redis (.del key)) sh = some (sh', r)) : sh'.redis key = none := by
  cases c with
  | fail => exact absurd rfl hc
  | ok a => cases h; exact Function.update_self _ _ _
  | failAfter a => cases h; exact Function.update_self _ _ _

theorem PrismaOp.run_journal {op : PrismaOp} {a r} (h : op.run a i o sh = some (sh', r)) :
    ∃ es, sh'.journal = sh.journal ++ es := by
  have same {sh₁ : Shared} (hj : sh₁.journal = sh.journal) : ∃ es, sh₁.journal = sh.journal ++ es :=
    ⟨[], by rw [hj, List.append_nil]⟩
  cases op with
  | userFindFirst e n =>
    simp only [run] at h
    split at h
    · cases h
      exact ⟨_, rfl⟩
    · obtain ⟨u, -, hu⟩ := Option.map_eq_some_iff.mp h
      cases hu
      exact ⟨_, rfl⟩
  | userUpdate id d =>
    cases d with
    | none => cases h; exact same rfl
    | some d =>
      simp only [run] at h
      repeat' split at h
      all_goals cases h
      all_goals exact same rfl
  | _ =>
    simp only [run] at h
    repeat' split at h
    all_goals cases h
    all_goals first
      | exact same rfl
      | exact ⟨_, rfl⟩

/-- The journal only grows. -/
theorem exec_journal {c : Choice} {op : Op} {r} (h : exec c i o op sh = some (sh', r)) :
    ∃ es, sh'.journal = sh.journal ++ es := by
  have same {sh₁ : Shared} (hj : sh₁.journal = sh.journal) : ∃ es, sh₁.journal = sh.journal ++ es :=
    ⟨[], by rw [hj, List.append_nil]⟩
  rcases exec_cases h with ⟨rfl, -⟩ | ⟨a, r₀, hrun, -⟩
  · cases op with
    | tx op => cases op <;> exact same rfl
    | _ => exact same rfl
  · cases op with
    | prisma op => exact PrismaOp.run_journal hrun
    | tx op => exact (TxOp.run_frame hrun).2.2.2
    | _ => cases hrun; exact same rfl

/-- Outside a session the ledger stays as it is, and notifications and login logs
are stored by their own inserts only. -/
theorem PrismaOp.run_entries {op : PrismaOp} {a r} (hu : ∀ id d, op ≠ .userUpdate id d)
    (h : op.run a i o sh = some (sh', r)) : sh'.db.transactions = sh.db.transactions ∧
      (sh'.db.notifications = sh.db.notifications ∨ ∃ n, op = .notificationCreate n ∧
        sh'.db.notifications = sh.db.notifications ++ [n]) ∧
      (sh'.db.loginLogs = sh.db.loginLogs ∨ ∃ l, op = .loginLogCreate l ∧
        sh'.db.loginLogs = sh.db.loginLogs ++ [l]) := by
  cases op with
  | userUpdate id d => exact absurd rfl (hu id d)
  | notificationCreate n =>
    cases h
    exact ⟨rfl, .inr ⟨n, rfl, rfl⟩, .inl rfl⟩
  | loginLogCreate l =>
    cases h
    exact ⟨rfl, .inl rfl, .inr ⟨l, rfl, rfl⟩⟩
  | userFindFirst e n =>
    simp only [run] at h
    split at h
    · cases h
      exact ⟨rfl, .inl rfl, .inl rfl⟩
    · obtain ⟨u, -, hu⟩ := Option.map_eq_some_iff.mp h
      cases hu
      exact ⟨rfl, .inl rfl, .inl rfl⟩
  | _ =>
    simp only [run] at h
    repeat' split at h
    all_goals cases h
    all_goals exact ⟨rfl, .inl rfl, .inl rfl⟩

/-- In a session the ledger grows with the commit. -/
theorem TxOp.run_entries {op : TxOp} {a r} (h : op.run a i o sh = some (sh', r)) :
    sh.db.transactions.rows <+: sh'.db.transactions.rows ∧
      sh'.db.notifications = sh.db.notifications ∧ sh'.db.loginLogs = sh.db.loginLogs := by
  have write {id v inc nv tx r} (hw : run.write i id v inc nv tx sh = some (sh', r)) :
      sh.db.transactions.rows <+: sh'.db.transactions.rows ∧
        sh'.db.notifications = sh.db.notifications ∧ sh'.db.loginLogs = sh.db.loginLogs := by
    unfold run.write at hw
    (repeat' split at hw) <;> cases hw <;> exact ⟨List.prefix_rfl, rfl, rfl⟩
  cases op with
  | walletUpdate id v inc nv =>
    simp only [run] at h
    repeat' split at h
    all_goals first
      | cases h
      | exact write h
  | commit =>
    simp only [run, Option.map_eq_some_iff] at h
    obtain ⟨tx, -, h⟩ := h
    unfold Shared.commit at h
    split at h
    · cases h
      exact ⟨List.prefix_rfl, rfl, rfl⟩
    · next ledger hl =>
      have added : sh.db.transactions.rows <+: ledger.rows :=
        Table.rows_of_foldlM_insert? hl ▸ List.prefix_append _ _
      dsimp only at h
      split at h <;> cases h <;> exact ⟨added, rfl, rfl⟩
  | _ =>
    simp only [run] at h
    repeat' split at h
    all_goals cases h
    all_goals exact ⟨List.prefix_rfl, rfl, rfl⟩

/-- Nothing is taken out of the ledger, and a notification or a login log is
stored by its own insert only. -/
theorem exec_entries {c : Choice} {op : Op} {r} (hu : ∀ id d, op ≠ .prisma (.userUpdate id d))
    (h : exec c i o op sh = some (sh', r)) :
    sh.db.transactions.rows <+: sh'.db.transactions.rows ∧
      (sh'.db.notifications = sh.db.notifications ∨ ∃ n, op = .prisma (.notificationCreate n) ∧
        sh'.db.notifications = sh.db.notifications ++ [n]) ∧
      (sh'.db.loginLogs = sh.db.loginLogs ∨ ∃ l, op = .prisma (.loginLogCreate l) ∧
        sh'.db.loginLogs = sh.db.loginLogs ++ [l]) := by
  have same {sh₁ : Shared} (ht : sh₁.db = sh.db) :
      sh.db.transactions.rows <+: sh₁.db.transactions.rows ∧
        (sh₁.db.notifications = sh.db.notifications ∨ ∃ n, op = .prisma (.notificationCreate n) ∧
          sh₁.db.notifications = sh.db.notifications ++ [n]) ∧
        (sh₁.db.loginLogs = sh.db.loginLogs ∨ ∃ l, op = .prisma (.loginLogCreate l) ∧
          sh₁.db.loginLogs = sh.db.loginLogs ++ [l]) := by
    rw [ht]
    exact ⟨List.prefix_rfl, .inl rfl, .inl rfl⟩
  rcases exec_cases h with ⟨rfl, -⟩ | ⟨a, r₀, hrun, -⟩
  · cases op with
    | tx op => cases op <;> exact same rfl
    | _ => exact same rfl
  · cases op with
    | prisma op =>
      obtain ⟨ledger, notes, logs⟩ := PrismaOp.run_entries (fun id d he => hu id d (by rw [he])) hrun
      refine ⟨ledger ▸ List.prefix_rfl, notes.imp_right ?_, logs.imp_right ?_⟩
      · exact fun ⟨n, hn, added⟩ => ⟨n, by rw [hn], added⟩
      · exact fun ⟨l, hl, added⟩ => ⟨l, by rw [hl], added⟩
    | tx op =>
      obtain ⟨ledger, notes, logs⟩ := TxOp.run_entries hrun
      exact ⟨ledger, .inl notes, .inl logs⟩
    | _ => cases hrun; exact same rfl

variable [Arithmetic]

theorem step_journal {s t : State} {l : Step} (h : step s l = some t) :
    ∃ es, t.shared.journal = s.shared.journal ++ es := by
  cases Machine.step_fires h with
  | start ha => exact ⟨[], by rw [(Origin.accept_same ha).journal, List.append_nil]⟩
  | run _ he => exact exec_journal he
  | env he => exact ⟨[], by rw [(EnvStep.run_same he).journal, List.append_nil]⟩
  | kill _ => exact ⟨[], (List.append_nil _).symm⟩

theorem accept_redis {o : Origin} (h : o.accept sh = some sh') : sh'.redis = sh.redis := by
  cases o with
  | http tok r => rw [(Origin.accept_http h).2]
  | delivery m => rw [(Origin.accept_delivery h).2.2]

omit [Arithmetic] in
/-- The surroundings only let entries expire. -/
theorem env_redis {e : EnvStep} (h : e.run sh = some sh') {k : CacheKey} {v : k.Value}
    (hv : sh'.redis k = some v) : sh.redis k = some v := by
  cases e with
  | expire k' =>
    cases h
    by_cases hk : k = k'
    · subst hk
      simp only [Function.update_self] at hv
      cases hv
    · simpa only [Function.update_of_ne hk] using hv
  | tick => cases h; exact hv
  | _ =>
    simp only [EnvStep.run] at h
    split at h <;> cases h
    exact hv

omit [Arithmetic] in
/-- A call of the broker holds on to old messages and to the one it publishes. -/
theorem RabbitOp.run_holds {op : RabbitOp} {b : Broker} {m : Message} (h : (op.run b).Holds m) :
    b.Holds m ∨ ∃ q data x, op = .sendToQueue q data x ∧ m = ⟨q, data, x, b.nextTag⟩ := by
  cases op with
  | assertQueue q => exact .inl h
  | ack m' =>
    rcases h with h | h | h
    · exact .inl (.inl h)
    · exact .inl (.inr (.inl (List.mem_of_mem_erase h)))
    · exact .inl (.inr (.inr h))
  | sendToQueue q data x =>
    rcases h with h | h | h
    · rcases List.mem_append.mp h with h | h
      · exact .inl (.inl h)
      · exact .inr ⟨q, data, x, rfl, List.mem_singleton.mp h⟩
    · exact .inl (.inr (.inl h))
    · rcases List.mem_append.mp h with h | h
      · exact .inl (.inr (.inr h))
      · exact .inr ⟨q, data, x, rfl, List.mem_singleton.mp h⟩

/-- A job is published by the thread it was asked of or by its own delivery. -/
theorem Traced.publishes {q data x} (h : Traced P sh g) (hg : g i = some (o, p))
    (ha : o.Allows p (.rabbit (.sendToQueue q data x))) (hd : data = .job j) (hP : P j) :
    Asked g j := by
  rcases ha with hf | ⟨j', ask, hj, -⟩ | ⟨m, rfl, hm, -⟩
  · rw [hd] at hf; cases hf
  · rw [hd] at hj; cases hj
    cases o with
    | http tok r => exact ⟨i, tok, r, p, hg, h.valid hg, ask.1, ask.2⟩
    | delivery m => exact ask.elim
  · refine h.thread hg ?_ hP
    simp only [Origin.job?, ← hm, hd]

theorem Traced.call {c : Choice} {op : Op} {r} (h : Traced P sh g) (hg : g i = some (o, p))
    (ha : o.Allows p op) (he : exec c i o op sh = some (sh', r)) :
    Traced P sh' (Function.update g i (some (o, p'))) where
  message {m j} hm hd hP := by
    refine Asked.update ?_ (.inr ⟨p, hg⟩)
    rcases exec_broker he with hb | ⟨op', rfl, hb⟩
    · exact h.message (hb ▸ hm) hd hP
    · rcases RabbitOp.run_holds (hb ▸ hm) with hm | ⟨q, data, x, rfl, rfl⟩
      · exact h.message hm hd hP
      · exact h.publishes hg ha hd hP
  thread {k o' q j} hk hj hP := by
    refine Asked.update ?_ (.inr ⟨p, hg⟩)
    by_cases he : k = i
    · subst he; rw [Function.update_self] at hk; cases hk; exact h.thread hg hj hP
    · rw [Function.update_of_ne he] at hk; exact h.thread hk hj hP
  valid {k tok r q} hk := by
    by_cases he : k = i
    · subst he; rw [Function.update_self] at hk; cases hk; exact h.valid hg
    · rw [Function.update_of_ne he] at hk; exact h.valid hk

omit [Arithmetic] in
theorem Traced.ofHolds (h : Traced P sh g) (hb : ∀ m, sh'.broker.Holds m → sh.broker.Holds m) :
    Traced P sh' g := ⟨fun hm => h.message (hb _ hm), h.thread, h.valid⟩

/-- A thread starts without touching the database. -/
theorem Origin.accept_db {o : Origin} (h : o.accept sh = some sh') : sh'.db = sh.db := by
  cases o with
  | http tok r => rw [(Origin.accept_http h).2]
  | delivery m => rw [(Origin.accept_delivery h).2.2]

omit [Arithmetic] in
/-- Of the database the surroundings move the clock only. -/
theorem EnvStep.run_entries {e : EnvStep} (h : e.run sh = some sh') :
    sh'.db.transactions = sh.db.transactions ∧ sh'.db.notifications = sh.db.notifications ∧
      sh'.db.loginLogs = sh.db.loginLogs := by
  cases e with
  | expire k => cases h; exact ⟨rfl, rfl, rfl⟩
  | tick => cases h; exact ⟨rfl, rfl, rfl⟩
  | _ =>
    simp only [run] at h
    split at h <;> cases h
    exact ⟨rfl, rfl, rfl⟩

theorem Origin.accept_holds {o : Origin} (h : o.accept sh = some sh') (m : Message)
    (hm : sh'.broker.Holds m) : sh.broker.Holds m := by
  cases o with
  | http tok r => exact (Origin.accept_http h).2 ▸ hm
  | delivery m' =>
    obtain ⟨ready, -, rfl⟩ := Origin.accept_delivery h
    rcases hm with hm | hm | hm
    · exact .inl (List.mem_of_mem_erase hm)
    · rcases List.mem_append.mp hm with hm | hm
      · exact .inr (.inl hm)
      · rw [List.mem_singleton.mp hm]
        exact .inl ready
    · exact .inr (.inr hm)

omit [Arithmetic] in
theorem EnvStep.run_holds {e : EnvStep} (h : e.run sh = some sh') (m : Message)
    (hm : sh'.broker.Holds m) : sh.broker.Holds m := by
  cases e with
  | expire k => cases h; exact hm
  | tick => cases h; exact hm
  | requeue m' =>
    simp only [run] at h
    split at h
    · next hin =>
      cases h
      rcases hm with hm | hm | hm
      · rcases List.mem_append.mp hm with hm | hm
        · exact .inl hm
        · exact .inr (.inl (List.mem_singleton.mp hm ▸ hin))
      · exact .inr (.inl (List.mem_of_mem_erase hm))
      · exact .inr (.inr hm)
    · cases h
  | redeliver m' =>
    simp only [run] at h
    split at h
    · next hin =>
      cases h
      rcases hm with hm | hm
      · rcases List.mem_append.mp hm with hm | hm
        · exact .inl hm
        · exact .inr (.inr (List.mem_singleton.mp hm ▸ hin))
      · exact .inr hm
    · cases h

theorem Traced.start (h : Traced P sh g) (hg : g i = none) (ha : o.accept sh = some sh') :
    Traced P sh' (Function.update g i (some (o, o.first))) := by
  have holds : (∀ m, sh'.broker.Holds m → sh.broker.Holds m) ∧
      ∀ j, o.job? = some j → P j → Asked g j := by
    cases o with
    | http tok r =>
      rw [(Origin.accept_http ha).2]
      exact ⟨fun _ => id, fun j hj => by cases hj⟩
    | delivery m =>
      obtain ⟨ready, -, rfl⟩ := Origin.accept_delivery ha
      refine ⟨fun m' hm => ?_, fun j hj hP => h.message (.inl ready) ?_ hP⟩
      · rcases hm with hm | hm | hm
        · exact .inl (List.mem_of_mem_erase hm)
        · rcases List.mem_append.mp hm with hm | hm
          · exact .inr (.inl hm)
          · exact .inl (List.mem_singleton.mp hm ▸ ready)
        · exact .inr (.inr hm)
      · simp only [Origin.job?] at hj
        split at hj
        · next he => cases hj; exact he
        · cases hj
  refine ⟨fun hm hd hP => (h.message (holds.1 _ hm) hd hP).update (.inl hg),
    fun {k o' q j} hk hj hP => ?_,
    fun {k tok r q} hk => ?_⟩
  · refine Asked.update ?_ (.inl hg)
    by_cases he : k = i
    · subst he; rw [Function.update_self] at hk; cases hk; exact holds.2 j hj hP
    · rw [Function.update_of_ne he] at hk; exact h.thread hk hj hP
  · by_cases he : k = i
    · subst he; rw [Function.update_self] at hk; cases hk
      exact (Origin.accept_http ha).1
    · rw [Function.update_of_ne he] at hk; exact h.valid hk

end

theorem traced_stable [Arithmetic] (P : Job → Prop) (C : State → Step → Prop) (K : Shared → Threads → Prop) :
    Machine.Stable service protocol Origin.first C K (Traced P) where
  start _ _ _ _ _ _ _ _ h hg ha := h.start hg ha
  run _ _ _ _ _ _ _ _ _ _ _ _ _ h hg ha he := h.call hg ha he
  env _ _ _ _ _ _ h he := h.ofHolds (EnvStep.run_holds he)
  kill _ _ _ _ _ h := h.ofHolds fun _ => id

/-- No job of `P` is in the broker. -/
def Broker.Lacks (P : Job → Prop) (b : Broker) : Prop :=
  ∀ m j, b.Holds m → m.data = .job j → ¬ P j

/-- No job at all is in the broker. -/
def Broker.Idle (b : Broker) : Prop := ∀ m, b.Holds m → m.data.isJob = false

theorem Broker.Idle.lacks {P : Job → Prop} {b : Broker} (h : b.Idle) : b.Lacks P := by
  intro m j hm hd
  have hf := h m hm
  rw [hd] at hf; cases hf

theorem State.empty_idle : State.empty.shared.broker.Idle := by
  rintro m (h | h | h) <;> cases h

theorem traced_noThreads {P : Job → Prop} {sh : Shared} (h : sh.broker.Lacks P) :
    Traced P sh noThreads where
  message hm hd hP := absurd hP (h _ _ hm hd)
  thread := nofun
  valid := nofun

/-- Some thread of the state is this request, sent with this token. -/
def State.Sent (s : State) (tokenUserId : Int) (r : Request) : Prop :=
  ∃ p, (⟨.http tokenUserId r, p⟩ : ServiceThread) ∈ s.threads

theorem Asked.sent [Arithmetic] {s : State} {g : Threads} {j : Job} (h : Asked g j)
    (ht : Machine.Tracks .crashed protocol Ends s.threads g) :
    ∃ r, r.Valid ∧ r.job? = some j ∧ s.Sent j.payer r := by
  obtain ⟨i, tok, r, p, hg, hv, hj, rfl⟩ := h
  obtain ⟨q, hq⟩ := ht.known hg
  exact ⟨r, hv, hj, q, List.mem_of_getElem? hq⟩

end Pactic
