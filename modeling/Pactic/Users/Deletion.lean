import Pactic.Protocol.Handover
import Pactic.Users.Signup

/-! # Requests of deleted accounts

Nothing but the login and a second deletion looks at `deletedAt`. A token goes
on being accepted after its account is deleted, and a request that is accepted
does what it is asked to. -/
namespace Pactic
open Keyed Resumption

/-- The account with this id is soft-deleted. -/
def Shared.Deleted (sh : Shared) (u : Int) : Prop :=
  ∃ row, sh.db.users.find? u = some row ∧ row.deletedAt ≠ none

/-- The request needs a token. -/
def Request.authenticated : Request → Bool
  | signup _ | login _ _ _ => false
  | _ => true

/-- The request asks for a change and does not look at `deletedAt` itself. -/
def Request.writes : Request → Bool
  | createWallet _ | fundWallet _ | withdrawFromWallet _ | transferFunds _ | updateProfile _ _ => true
  | _ => false

/-- The call publishes no job, makes no wallet and touches no user. -/
def Op.harmless : Op → Bool
  | .prisma (.walletCreate _ _) => false
  | .tx _ => false
  | .rabbit (.sendToQueue _ data _) => !data.isJob
  | op => op.sparesUsers

/-- What is left of a request with a token of a deleted user does no harm: it
writes nothing, or it is about to find its user deleted. -/
def Inert (u : Int) (prog : Proc Reply) : Prop :=
  prog.Only (fun op => op.harmless = true) ∨ ∃ k, prog = .call (.prisma (.userFindById u)) k ∧
    ∀ r, (∀ row, r = .ok (some row) → row.deletedAt ≠ none) →
      (k r).Only fun op => op.harmless = true

/-- No request that writes is accepted from a deleted user, and when a user is
deleted no other request of the user is still to write. -/
structure TokensExpire (u : Int) (s : State) (l : Step) : Prop where
  accepted : ∀ r, l = .start (.http u r) → s.shared.Deleted u → r.writes = false
  pending : ∀ t, step s l = some t → ¬ s.shared.Deleted u → t.shared.Deleted u →
    ∀ i r prog, s.threads[i]? = some ⟨.http u r, prog⟩ → r.authenticated = true →
      (∀ c, l ≠ .run i c) → Inert u prog

/-! ## One update at most -/

def Origin.authenticated : Origin → Bool
  | http _ r => r.authenticated
  | delivery _ => false

/-- Whether the thread has updated a user. A request with a token writes no user
after that, and signs nobody up. -/
def Origin.AllowsUpdate (o : Origin) (p : Bool) (op : Op) : Prop :=
  o.authenticated = true → (p = true → op.harmless = true) ∧
    ∀ e n h, op ≠ .prisma (.userUpsert e n h)

def updated (p : Bool) : (o : Op) → Except Err o.Res → Bool
  | .prisma (.userUpdate _ _), _ => true
  | _, _ => p

def updates (o : Origin) : Monitor Op Op.Res Err Bool := ⟨o.AllowsUpdate, updated⟩

section
variable {o : Origin} {α : Type}

theorem spares_still {op : Op} (h : op.sparesUsers = true) :
    (updates o).allow false op ∧ ∀ r, (updates o).next false op r = false := by
  cases op with
  | prisma op =>
    cases op with
    | userFindFirst | userUpsert | userUpdate => cases h
    | _ => exact ⟨fun _ => ⟨Bool.noConfusion, fun e n h => by simp⟩, fun r => rfl⟩
  | _ => exact ⟨fun _ => ⟨Bool.noConfusion, fun e n h => by simp⟩, fun r => rfl⟩

theorem Spares.updates {c : Proc α} (h : Spares c) :
    (updates o).wp c (fun _ q => q = false) false :=
  Monitor.wp_of_only _ (fun _ => spares_still) h

/-- After the update nothing but harmless calls is left. -/
theorem only_harmless {p : Proc α} {Q : Except Err α → Bool → Prop} (ho : o.authenticated = true)
    (h : (updates o).wp p Q true) : p.Only fun op => op.harmless = true := by
  induction p with
  | ret r => trivial
  | call op k ih =>
    have hop := (h.1 ho).1 rfl
    refine ⟨hop, fun r => ih r ?_⟩
    have hr := h.2 r
    have still : (Pactic.updates o).next true op r = true := by
      cases op with
      | prisma op => cases op <;> rfl
      | _ => rfl
    rwa [still] at hr

theorem harmless_still {op : Op} (h : op.harmless = true) :
    (updates o).allow true op ∧ ∀ r, (updates o).next true op r = true := by
  refine ⟨fun _ => ⟨fun _ => h, fun e n p hop => ?_⟩, fun r => ?_⟩
  · subst hop; cases h
  · cases op with
    | prisma op => cases op <;> rfl
    | _ => rfl

/-- Updating a user, and then harmless calls only. -/
theorem update_updates {u : Int} {data : Option UserUpdate} {rest : User → Proc α}
    (h : ∀ v, (rest v).Only fun op => op.harmless = true) :
    (updates o).wp (do let v ← Prisma.userUpdate u data; rest v) (fun _ _ => True) false := by
  refine (Monitor.wp_perform_bind _ _ _ _ _).mpr
    ⟨fun _ => ⟨Bool.noConfusion, fun e n h => by simp⟩, fun v => ?_, fun _ => trivial⟩
  show (updates o).wp (rest v) (fun _ _ => True) true
  exact Monitor.wp_mono _ (Monitor.wp_of_only _ (fun _ => harmless_still) (h v)) fun _ _ _ => trivial

theorem updateProfile_updates (client : Client) (u : Int) (dto : JsonObject) :
    (updates o).wp (UsersService.updateProfile client u dto) (fun _ _ => True) false :=
  update_updates fun _ => .bind (.perform rfl) fun _ => .bind (.perform rfl) fun _ => trivial

theorem deleteUser_updates (u : Int) :
    (updates o).wp (UsersService.deleteUser u) (fun _ _ => True) false := by
  have still (op : Op) (h : op.sparesUsers = true) : (updates o).allow false op := (spares_still h).1
  refine (Monitor.wp_perform_bind _ _ _ _ _).mpr ⟨still _ rfl, fun found => ?_, fun _ => trivial⟩
  cases found with
  | none => trivial
  | some user =>
    dsimp only
    split
    · trivial
    · refine (Monitor.wp_perform_bind _ _ _ _ _).mpr ⟨still _ rfl, fun now => ?_, fun _ => trivial⟩
      exact update_updates fun _ => .bind (.perform rfl) fun _ => trivial

theorem service_updates (C : State → Step → Prop) :
    Machine.Obeys service updates (fun _ _ _ => True) (fun _ => false) C := by
  intro s o sh _ ha
  by_cases ho : o.authenticated = true
  · cases o with
    | delivery m => cases ho
    | http tok r =>
      have spares {c : Proc Reply} (h : Spares c) :
          (updates (.http tok r)).wp c (fun _ _ => True) false :=
        Monitor.wp_mono _ h.updates fun _ _ _ => trivial
      have wallets (hr : r.ofWallets = true) : Spares (r.program tok) :=
        Monitor.only_of_wp (protocol (.http tok r)) (fun _ _ => sparesUsers_of_protocol)
          (Request.program_keeps hr (rfl : (Origin.first (.http tok r)).stage = .fresh))
      cases r with
      | signup b => cases ho
      | login b ip ua => cases ho
      | getProfile u => exact spares (getProfile_spares u tok)
      | updateProfile body client =>
        simp only [service, Origin.program, Request.program, UsersController.updateProfile]
        split
        · trivial
        · exact wp_validateTokenUser (fun _ => trivial) fun _ =>
            wp_answer (updateProfile_updates client _ _) (fun _ _ _ => trivial) fun _ _ _ => trivial
      | deleteUser u =>
        exact wp_validateTokenUser (fun _ => trivial) fun _ => deleteUser_updates u
      | _ => exact spares (wallets rfl)
  · have free : ∀ (p : Bool) (op : Op), (updates o).allow p op := fun _ _ h => absurd h ho
    exact Monitor.wp_of_allow _ free _ _

end

/-! ## Nobody with such a token writes -/

/-- While the user is deleted, every request of the user does no harm. -/
def Harmless (u : Int) (s : State) : Prop := s.shared.Deleted u →
  ∀ (i : Nat) r prog, s.threads[i]? = some ⟨.http u r, prog⟩ → r.authenticated = true → Inert u prog

section
variable {sh sh' : Shared} {i : Nat} {o : Origin} {c : Choice} {u : Int} {s t : State} {l : Step}
  {g g' : Machine.Ghost Origin Bool}

theorem Op.sparesUsers_of_harmless {op : Op} (h : op.harmless = true) : op.sparesUsers = true := by
  cases op with
  | prisma op => cases op <;> first | exact h | cases h
  | _ => rfl

theorem Op.harmless_of_reads {op : Op} (h : op.reads = true) : op.harmless = true := by
  cases op with
  | prisma op => cases op <;> first | rfl | cases h
  | tx op => cases h
  | rabbit op => cases op <;> first | rfl | exact h
  | _ => rfl

/-- What a harmless call leaves alone. -/
theorem exec_harmless {op : Op} {r} (hop : op.harmless = true)
    (h : exec c i o op sh = some (sh', r)) : sh'.db.users = sh.db.users ∧
      sh'.db.wallets = sh.db.wallets ∧
      ∀ m ∈ sh'.broker.sent, m.data.isJob = true → m ∈ sh.broker.sent := by
  refine ⟨exec_spares (Op.sparesUsers_of_harmless hop) h, ?_, fun m hm hj => ?_⟩
  · rcases exec_cases h with ⟨rfl, -⟩ | ⟨a, r₀, hrun, -⟩
    · cases op with
      | tx op => cases hop
      | _ => rfl
    · cases op with
      | prisma op =>
        cases op with
        | walletCreate | userFindFirst | userUpsert | userUpdate => cases hop
        | walletRequestCreate row =>
          simp only [Op.run, PrismaOp.run] at hrun
          split at hrun <;> cases hrun <;> rfl
        | _ => cases hrun; rfl
      | tx op => cases hop
      | _ => cases hrun; rfl
  · rcases exec_broker h with hb | ⟨op', rfl, hb⟩
    · exact hb ▸ hm
    · rw [hb] at hm
      cases op' with
      | sendToQueue q data x =>
        rcases List.mem_append.mp hm with hm | hm
        · exact hm
        · cases List.mem_singleton.mp hm
          have hd : data.isJob = true := hj
          simp only [Op.harmless, hd, Bool.not_true] at hop
          cases hop
      | _ => exact hm

/-- A request that may be accepted from a deleted user does no harm. -/
theorem program_inert {r : Request} (ha : r.authenticated = true) (hw : r.writes = false) :
    Inert u (r.program u) := by
  have checked {v : Int} {c : Proc Reply} (h : v = u → Inert u c) :
      Inert u (do validateTokenUser v u; c) := by
    unfold validateTokenUser
    split
    · exact .inl trivial
    · next he => exact h (not_not.mp he)
  have reads {α : Type} {c : Proc α} {f : α → Reply} (h : c.Only fun op => op.reads = true) :
      Inert u (do let a ← c; pure (f a)) :=
    .inl (.bind (h.mono fun _ => Op.harmless_of_reads) fun _ => trivial)
  cases r with
  | getUserWallets v => exact checked fun _ => reads (getUserWallets_reads v)
  | getProfile v => exact checked fun _ => reads (getProfile_reads v)
  | deleteUser v =>
    refine checked fun hv => .inr ⟨_, by rw [hv]; rfl, fun found hdel => ?_⟩
    cases found with
    | error e => trivial
    | ok found =>
      cases found with
      | none => trivial
      | some row =>
        have hne := hdel row rfl
        show Prog.Only _ (if row.deletedAt ≠ none then _ else _)
        rw [if_pos hne]
        trivial
  | signup _ | login _ _ _ => cases ha
  | _ => cases hw

theorem Shared.Deleted.same (h : sh'.Deleted u) (hu : sh'.db.users = sh.db.users) : sh.Deleted u := by
  obtain ⟨row, hrow, hd⟩ := h
  exact ⟨row, hu ▸ hrow, hd⟩

theorem Inert.harmless {op : Op} {k : Except Err op.Res → Proc Reply} (h : Inert u (.call op k)) :
    op.harmless = true := by
  rcases h with h | ⟨k', hk, -⟩
  · exact h.1
  · cases hk; rfl

/-- Finding its user deleted, a request goes on doing no harm. -/
theorem Inert.next {op : Op} {k : Except Err op.Res → Proc Reply} {r} (h : Inert u (.call op k))
    (hd : sh.Deleted u) (he : exec c i o op sh = some (sh', r)) : Inert u (k r) := by
  rcases h with h | ⟨k', hk, rest⟩
  · exact .inl (h.2 _)
  · cases hk
    refine .inl (rest r fun row hr => ?_)
    subst hr
    obtain ⟨row', hrow, hd⟩ := hd
    rcases exec_answer he with ⟨a, -, hrun⟩ | herr
    · simp only [Op.run, PrismaOp.run, Option.some.injEq, Prod.mk.injEq, Except.ok.injEq] at hrun
      rw [hrow] at hrun
      cases hrun.2
      exact hd
    · cases herr

theorem Harmless.step (hc : TokensExpire u s l)
    (ht : Machine.Tracks .crashed updates (fun _ _ _ => True) s.threads g) (h : Harmless u s)
    (hf : Machine.Follows service .crashed updates (fun _ => false) s g l t g') : Harmless u t := by
  intro hdel j r prog hj ha
  -- threads that do not move keep their programs
  have old (hi : s.threads[j]? = some ⟨.http u r, prog⟩) (hr : ∀ c, l ≠ .run j c) : Inert u prog := by
    by_cases hd : s.shared.Deleted u
    · exact h hd j r prog hi ha
    · exact hc.pending t hf.step hd hdel j r prog hi ha hr
  cases hf with
  | start hacc hnone =>
    have hd := hdel.same (accept_users hacc)
    by_cases hn : j < s.threads.length
    · rw [List.getElem?_append_left hn] at hj
      exact old hj fun c hl => by cases hl
    · have hlen := (List.getElem?_eq_some_iff.mp hj).1
      rw [List.length_append, List.length_singleton] at hlen
      rw [show j = s.threads.length by omega, List.getElem?_concat_length, Option.some.injEq] at hj
      cases hj
      exact program_inert ha (hc.accepted r rfl hd)
  | env henv => exact old hj fun c hl => by cases hl
  | @kill i o op k p hi hg =>
    by_cases hn : i = j
    · subst hn
      rw [List.getElem?_set_self (List.getElem?_eq_some_iff.mp hi).1, Option.some.injEq] at hj
      cases hj
      exact .inl trivial
    · rw [List.getElem?_set_ne hn] at hj
      exact old hj fun c hl => by cases hl
  | @run i c o op k sh r' p hi hg allowed he =>
    by_cases hn : i = j
    · subst hn
      rw [List.getElem?_set_self (List.getElem?_eq_some_iff.mp hi).1, Option.some.injEq] at hj
      cases hj
      by_cases hd : s.shared.Deleted u
      · exact (h hd i r _ hi ha).next hd he
      · -- the call has deleted the user, so it was the update of the request
        have hop : op.sparesUsers = false := by
          by_contra hspares
          exact hd (hdel.same (exec_spares (Bool.not_eq_false _ ▸ hspares) he))
        obtain ⟨p', -, -, rest⟩ := ht.called hi
        have hupd : updated p' op r' = true := by
          cases op with
          | prisma op =>
            cases op with
            | userUpdate id d => rfl
            | userUpsert e n h => exact absurd rfl ((allowed ha).2 e n h)
            | userFindFirst e n => exact absurd (hdel.same (exec_check he).1) hd
            | _ => cases hop
          | _ => cases hop
        have hw := rest r'
        rw [show (updates (.http u r)).next p' op r' = true from hupd] at hw
        exact .inl (only_harmless (show (Origin.http u r).authenticated = true from ha) hw)
    · rw [List.getElem?_set_ne hn] at hj
      exact old hj fun c' hl => by cases hl; exact hn rfl

/-- A request with a token of a deleted user publishes no job, makes no wallet
and changes no user, in every run in which none is accepted that writes while
the user is deleted, and none is still to write when the user is deleted. -/
theorem deleted_accounts_are_inert {v : State} {r : Request} {op : Op}
    {k : Except Err op.Res → Proc Reply} (hs : s.threads = []) (h : Reach (TokensExpire u) s t)
    (hi : t.threads[i]? = some ⟨.http u r, .call op k⟩) (ha : r.authenticated = true)
    (hd : t.shared.Deleted u) (hv : step t (.run i c) = some v) :
    (∀ m ∈ v.shared.broker.sent, m.data.isJob = true → m ∈ t.shared.broker.sent) ∧
    v.shared.db.wallets = t.shared.db.wallets ∧ v.shared.db.users = t.shared.db.users := by
  let I : State → Machine.Ghost Origin Bool → Prop := fun s _ => Harmless u s
  have start : I s fun _ => none := fun _ i r prog hi => by rw [hs] at hi; cases hi
  obtain ⟨g, -, harmless⟩ := Machine.Tracks.invariant (service_updates _) (.of_nil hs) start
    (fun u g l v g' hc hu hI hf => Harmless.step hc hu hI hf) h
  obtain ⟨sh, r', he, rfl⟩ := (Machine.step_run hi).mp hv
  obtain ⟨hu, hw, hm⟩ := exec_harmless (harmless hd i r _ hi ha).harmless he
  exact ⟨hm, hw, hu⟩

end

/-- One request at a time, and none that writes. -/
def readsAlone (s : State) : Step → Bool
  | .start (.http _ r) => !r.writes && s.threads.all (·.prog.finished)
  | .run i _ => s.threads.zipIdx.all fun x => x.2 = i || x.1.prog.finished
  | _ => false

theorem inert_of_finished {u : Int} {prog : Proc Reply} (h : prog.finished = true) : Inert u prog := by
  cases prog with
  | ret r => exact .inl trivial
  | call op k => cases h

theorem tokensExpire_of_readsAlone {u : Int} {s : State} {l : Step} (h : readsAlone s l = true) :
    TokensExpire u s l := by
  refine ⟨fun r hl _ => ?_, fun t _ _ _ i r prog hi _ hr => inert_of_finished ?_⟩
  · subst hl
    simpa [readsAlone] using ((Bool.and_eq_true _ _).mp h).1
  · have hmem := List.mem_of_getElem? hi
    cases l with
    | start o =>
      cases o with
      | http tok r' => exact List.all_eq_true.mp ((Bool.and_eq_true _ _).mp h).2 _ hmem
      | delivery m => cases h
    | run j c =>
      have hz := List.all_eq_true.mp h (⟨.http u r, prog⟩, i) (List.mem_zipIdx_iff_getElem?.mpr hi)
      rcases (Bool.or_eq_true _ _).mp hz with he | hf
      · exact absurd (by rw [show i = j from of_decide_eq_true he]) (hr c)
      · exact hf
    | env e => cases h
    | kill j => cases h

/-- User 1 signs up and is deleted again. -/
def signupAndDelete : List Step :=
  .start (.http 0 (.signup ⟨"bob@a", "bob", "secret"⟩)) :: calls 0 3 ++
  .start (.http 1 (.deleteUser 1)) :: calls 1 4

/-- The user the thread is about to delete, with the user's own token. -/
def ServiceThread.deletes? (th : ServiceThread) : Option Int :=
  match th.origin, th.prog with
  | .http tok (.deleteUser u), .call _ _ => if tok = u then some u else none
  | _, _ => none

theorem ServiceThread.deletes?_eq_some {th : ServiceThread} {u : Int}
    (h : th.deletes? = some u) : ∃ op k, th = ⟨.http u (.deleteUser u), .call op k⟩ := by
  obtain ⟨o, prog⟩ := th
  unfold deletes? at h
  split at h
  · next tok v op k ho hp =>
    split at h
    · next he => cases h; cases ho; cases hp; exact ⟨op, k, by rw [he]⟩
    · cases h
  · cases h

/-- The deleted user asks to be deleted again, and is refused. -/
theorem deleted_accounts_are_inert_again : ∃ t v, Reach (TokensExpire 1) State.empty t ∧
    t.shared.Deleted 1 ∧ (∃ op k, t.threads[2]? = some ⟨.http 1 (.deleteUser 1), .call op k⟩) ∧
    step t (.run 2 (.ok {})) = some v ∧ v.idle = true ∧
    v.shared.db.users = t.shared.db.users := by
  have h : ((service.runsIf .crashed readsAlone (signupAndDelete ++ [.start (.http 1 (.deleteUser 1))])
      State.empty).bind fun t => (step t (.run 2 (.ok {}))).map fun v => decide (
        (t.threads[2]?.any fun th => ServiceThread.deletes? th = some 1) ∧
        ((t.shared.db.users.find? 1).any fun row => row.deletedAt ≠ none) ∧ v.idle = true)) =
      some true := by decide +kernel
  simp only [Option.bind_eq_some_iff, Option.map_eq_some_iff] at h
  obtain ⟨t, ht, v, hv, hp⟩ := h
  obtain ⟨hth, hrow, idle⟩ := of_decide_eq_true hp
  obtain ⟨th, hi, hth⟩ := Option.any_eq_true _ _ |>.mp hth
  obtain ⟨op, k, rfl⟩ := ServiceThread.deletes?_eq_some (of_decide_eq_true hth)
  obtain ⟨row, hrow, hdel⟩ := Option.any_eq_true _ _ |>.mp hrow
  have reach : Reach (TokensExpire 1) State.empty t :=
    Machine.reach_of_runsIf (fun _ _ => tokensExpire_of_readsAlone) ht
  have deleted : t.shared.Deleted 1 := ⟨row, hrow, of_decide_eq_true hdel⟩
  exact ⟨t, v, reach, deleted, ⟨op, k, hi⟩, hv, idle,
    (deleted_accounts_are_inert rfl reach hi rfl deleted hv).2.2⟩

/-- The deposit a request asks for, and the user of its token. -/
def ServiceThread.deposit? (th : ServiceThread) : Option (Int × FundWalletDto) :=
  match th.origin with
  | .http tok (.fundWallet b) => some (tok, b)
  | _ => none

theorem ServiceThread.deposit?_eq_some {th : ServiceThread} {tok : Int} {b : FundWalletDto}
    (h : th.deposit? = some (tok, b)) : th.origin = .http tok (.fundWallet b) := by
  unfold deposit? at h
  split at h
  · next ho => cases h; exact ho
  · cases h

def depositByDeleted : FundWalletDto := ⟨1, 1, "USD", 10, "a"⟩

/-- A deposit asked for with a token of the deleted user is enqueued. -/
theorem deleted_account_deposits : ∃ t v, Reach (fun _ _ => True) State.empty t ∧
    t.shared.Deleted 1 ∧
    (∃ th, t.threads[2]? = some th ∧ th.origin = .http 1 (.fundWallet depositByDeleted)) ∧
    step t (.run 2 (.ok {})) = some v ∧ t.shared.broker.ready = [] ∧
    v.shared.broker.ready = [⟨.walletFunding, .job (.funding depositByDeleted), none, 0⟩] := by
  have h : ((runSteps (signupAndDelete ++ .start (.http 1 (.fundWallet depositByDeleted)) ::
      calls 2 3) State.empty).bind fun t => (step t (.run 2 (.ok {}))).map fun v =>
        decide (((t.shared.db.users.find? 1).any fun row => row.deletedAt ≠ none) ∧
          (t.threads[2]?.any fun th => ServiceThread.deposit? th = some (1, depositByDeleted)) ∧
          t.shared.broker.ready = [] ∧ v.shared.broker.ready =
            [⟨.walletFunding, .job (.funding depositByDeleted), none, 0⟩])) = some true := by
    decide +kernel
  obtain ⟨t, v, ht, hv, hp⟩ := runSteps_step h
  obtain ⟨hrow, hth, hbefore, hafter⟩ := of_decide_eq_true hp
  obtain ⟨row, hrow, hdel⟩ := Option.any_eq_true _ _ |>.mp hrow
  obtain ⟨th, hi, hdep⟩ := Option.any_eq_true _ _ |>.mp hth
  exact ⟨t, v, Machine.reach_of_runs (fun _ _ _ => trivial) ht, ⟨row, hrow, of_decide_eq_true hdel⟩,
    ⟨th, hi, ServiceThread.deposit?_eq_some (of_decide_eq_true hdep)⟩, hv, hbefore, hafter⟩

end Pactic
