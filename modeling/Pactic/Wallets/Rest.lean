import Pactic.Lib.Length
import Pactic.Protocol.Calls
import Pactic.Wallets.Deadlock

/-! # Coming to rest

A thread holds locks only inside its `$transaction`, and no thread ends inside
one. So whoever is waited for has calls to make, and where nobody waits in a
circle some call can be answered. No program makes more than thirty calls. -/
namespace Pactic
open Keyed Locking Resumption

variable {α β : Type}

/-! ## Inside and outside of a session -/

def Op.outside : Op → Bool
  | .tx _ => false
  | _ => true

/-- Inside a session a thread makes statements only, outside of it none. -/
def Op.Within (inside : Bool) : Op → Prop
  | .tx .begin => inside = false
  | .tx _ => inside = true
  | _ => inside = false

def insideAfter (inside : Bool) : (o : Op) → Except Err o.Res → Bool
  | .tx .begin, .ok _ => true
  | .tx .commit, _ | .tx .rollback, _ => false
  | _, _ => inside

def sessions : Monitor Op Op.Res Err Bool := ⟨Op.Within, insideAfter⟩

/-- The program starts outside of a session and ends outside. -/
abbrev Closes (c : Proc α) : Prop := sessions.Maintains (fun inside => inside = false) c

theorem Closes.of_outside {c : Proc α} (h : c.Only fun op => op.outside = true) : Closes c := by
  refine .of_only (fun inside op hin hop => ?_) h
  cases op with
  | tx op => cases hop
  | _ => exact ⟨hin, fun _ => hin⟩

theorem Closes.of_minor {c : Proc α} (h : MinorCalls c) : Closes c := by
  refine .of_outside (h.mono fun op hop => ?_)
  cases op with
  | tx op => cases hop
  | _ => rfl

theorem Closes.of_reads {c : Proc α} (h : c.Only fun op => op.reads = true) : Closes c := by
  refine .of_outside (h.mono fun op hop => ?_)
  cases op with
  | tx op => cases hop
  | _ => rfl

theorem Closes.transaction {body : Proc α} (h : Statements body) :
    Closes (Prisma.transaction body) := by
  have inside : sessions.wp body (fun _ inside => inside = true) true := by
    refine sessions.wp_of_only (fun op hop => ?_) h
    cases op with
    | tx op => cases op with
      | begin | commit | rollback => cases hop
      | _ => exact ⟨rfl, fun _ => rfl⟩
    | _ => cases hop
  rintro _ rfl
  simp only [Prisma.transaction, Monitor.wp_bind, Monitor.wp_tryCatch, Monitor.wp_perform,
    forall_except_unit]
  refine ⟨rfl, sessions.wp_mono inside fun r b hb => ?_, fun e => rfl⟩
  cases r with
  | ok a => exact ⟨hb, rfl, fun e => rfl⟩
  | error e => exact ⟨hb, rfl, fun e => rfl⟩

/-! ## Every program closes its session -/

theorem preLog_closes (u c t) : Closes (preLog u c t) := by
  refine Closes.of_outside (.tryCatch (.bind (.perform rfl) fun _ => trivial) fun err => ?_)
  split <;> trivial

theorem markFailed_closes (t) : Closes (markFailed t) :=
  Closes.of_outside (.bind (.perform rfl) fun _ => .perform rfl)

theorem guarded_closes {c : Proc Unit} (h : Closes c) (u cur t) : Closes (do
    if ← alreadyProcessed t then pure ()
    else if ← preLog u cur t then c
    else pure ()) := by
  refine .bind (Closes.of_minor (alreadyProcessed_calls t)) fun skip => ?_
  cases skip with
  | true => exact .ret _
  | false =>
    refine .bind (preLog_closes u cur t) fun mine => ?_
    cases mine with
    | true => exact h
    | false => exact .ret _

theorem Job.handler_closes (j : Job) : Closes j.handler := by
  cases j with
  | funding d =>
    refine .tryCatch (guarded_closes ?_ _ _ _) fun e => .bind (markFailed_closes _) fun _ => .ret _
    refine .bind (Closes.of_outside (.perform rfl)) fun w =>
      .bind (Closes.of_outside (checkWallet_only _ _ _ _)) fun _ => ?_
    exact .bind (Closes.transaction (fundingTransaction_calls d)) fun row =>
      Closes.of_minor (funded_calls d row)
  | withdrawal d =>
    refine .tryCatch (guarded_closes ?_ _ _ _) fun e => markFailed_closes _
    exact .bind (Closes.transaction (withdrawalTransaction_calls d)) fun row =>
      Closes.of_minor (withdrawn_calls d row)
  | transfer d =>
    refine .tryCatch (guarded_closes ?_ _ _ _) fun e => .bind (markFailed_closes _) fun _ => .ret _
    exact .bind (Closes.transaction (transferTransaction_calls d)) fun _ =>
      Closes.of_minor (transferred_calls d)

theorem notificationHandler_closes (n : Notification) : Closes (notificationHandler n) := by
  unfold notificationHandler
  split
  · exact .ret _
  · exact .tryCatch (Closes.of_outside (.perform rfl)) fun _ => .ret _

theorem loginHandler_closes (l : LoginAttempt) : Closes (loginHandler l) :=
  Closes.of_outside ⟨rfl, fun _ => trivial⟩

theorem sendToQueue_outside (q data x) : (sendToQueue q data x).Only fun op => op.outside = true :=
  .tryCatch (.bind (.perform rfl) fun _ => .perform rfl) fun _ => trivial

theorem consume_closes {q : Queue} {handler : Proc Unit} (h : Closes handler) (m : Message) :
    Closes (consume q handler m) := by
  refine .tryCatch h fun _ => Closes.of_outside ?_
  split
  · exact .bind (sendToQueue_outside _ _ _) fun _ => .perform rfl
  · exact .bind (sendToQueue_outside _ _ _) fun _ => .perform rfl

theorem deliver_closes {m : Message} {c : Proc Unit} (h : deliver m = some c) : Closes c := by
  unfold deliver at h
  split at h
  · next d _ _ => cases h; exact consume_closes (Job.handler_closes (.funding d)) m
  · next d _ _ => cases h; exact consume_closes (Job.handler_closes (.withdrawal d)) m
  · next d _ _ => cases h; exact consume_closes (Job.handler_closes (.transfer d)) m
  · next n _ _ => cases h; exact consume_closes (notificationHandler_closes n) m
  · next l _ _ => cases h; exact consume_closes (loginHandler_closes l) m
  · cases h

theorem validateTokenUser_closes (u tok : Int) : Closes (validateTokenUser u tok) := by
  unfold validateTokenUser
  split <;> exact .ret _

theorem enqueueUnlessUsed_closes (c q : String) (j : Job) :
    Closes (WalletsService.enqueueUnlessUsed c q j) := by
  refine Closes.of_outside (.bind (.perform rfl) fun cached => ?_)
  split
  · trivial
  · refine .bind (.perform rfl) fun found => ?_
    cases found with
    | some r => exact .bind (.perform rfl) fun _ => trivial
    | none => exact .bind (sendToQueue_outside _ _ _) fun _ => trivial

theorem Request.program_closes (tok : Int) (r : Request) : Closes (r.program tok) := by
  cases r with
  | createWallet b =>
    refine .bind (validateTokenUser_closes _ _) fun _ => .bind (Closes.of_outside ?_) fun _ => .ret _
    refine .bind (.perform rfl) fun cached => ?_
    split
    · trivial
    refine .bind (.perform rfl) fun recorded => ?_
    unfold WalletsService.createUnlessRecorded
    split
    · exact .bind (.perform rfl) fun _ => trivial
    refine .bind (.perform rfl) fun found => ?_
    cases found with
    | some w => trivial
    | none =>
      refine .bind (.perform rfl) fun w => .bind (.perform rfl) fun _ => .bind (.perform rfl) fun _ =>
        .bind (sendToQueue_outside _ _ _) fun _ => .bind (.bind (.perform rfl) fun list => ?_)
          fun _ => trivial
      cases list with
      | none => trivial
      | some ws => exact .perform rfl
  | fundWallet b =>
    refine .bind (validateTokenUser_closes _ _) fun _ => Closes.of_outside ?_
    refine .bind (.perform rfl) fun cached => ?_
    cases cached with
    | some v => trivial
    | none =>
      refine .bind (.perform rfl) fun found => ?_
      cases found with
      | some r => exact .bind (.perform rfl) fun _ => trivial
      | none => exact .bind (sendToQueue_outside _ _ _) fun _ => trivial
  | getUserWallets u =>
    exact .bind (validateTokenUser_closes _ _) fun _ =>
      .bind (Closes.of_reads (getUserWallets_reads u)) fun _ => .ret _
  | withdrawFromWallet b =>
    exact .bind (validateTokenUser_closes _ _) fun _ => enqueueUnlessUsed_closes _ _ _
  | transferFunds b =>
    exact .bind (validateTokenUser_closes _ _) fun _ => enqueueUnlessUsed_closes _ _ _
  | signup b =>
    refine .bind (Closes.of_outside (.bind (.perform rfl) fun found => ?_)) fun _ => .ret _
    split
    · trivial
    · exact .bind (.perform rfl) fun _ => .bind (.perform rfl) fun _ => trivial
  | login b ip ua => exact .bind (Closes.of_reads (login_reads b ip ua)) fun _ => .ret _
  | getProfile u =>
    exact .bind (validateTokenUser_closes _ _) fun _ =>
      .bind (Closes.of_reads (getProfile_reads u)) fun _ => .ret _
  | updateProfile body client =>
    simp only [Request.program, UsersController.updateProfile]
    split
    · exact .ret _
    · exact .bind (validateTokenUser_closes _ _) fun _ => .bind (Closes.of_outside
        (.bind (.perform rfl) fun _ => .bind (.perform rfl) fun _ => .bind (.perform rfl) fun _ =>
          trivial)) fun _ => .ret _
  | deleteUser u =>
    refine .bind (validateTokenUser_closes _ _) fun _ => Closes.of_outside ?_
    refine .bind (.perform rfl) fun found => ?_
    split
    · trivial
    split
    · trivial
    · exact .bind (.perform rfl) fun _ => .bind (.perform rfl) fun _ => .bind (.perform rfl) fun _ =>
        trivial

theorem service_closes (C : State → Step → Prop) : Machine.Obeys service (fun _ => sessions)
    (fun _ _ inside => inside = false) (fun _ => false) C := by
  intro s o sh _ ha
  cases o with
  | http tok r => exact r.program_closes tok false rfl
  | delivery m =>
    obtain ⟨c, hc, hp⟩ := Origin.program_delivery (Origin.accept_delivery ha).2.1
    rw [show service.program (.delivery m) = _ from hp]
    exact Monitor.Maintains.bind (deliver_closes hc) (fun _ => .ret _) false rfl

/-! ## Locks and open sessions belong to threads in progress -/

abbrev InSession := Machine.Ghost Origin Bool

structure Sessions (s : State) (g : InSession) : Prop where
  holder : ∀ {id k}, s.shared.locks id = some k → s.Busy k ∧ ∃ o, g k = some (o, true)
  opened : ∀ {k o}, s.Busy k → g k = some (o, true) → (s.shared.txs k).isSome

section
variable {sh sh' : Shared} {i k : Nat} {o : Origin} {c : Choice} {op : Op}

/-- A session stays open until its own thread ends it. -/
theorem exec_txs {r} (h : exec c i o op sh = some (sh', r)) (hk : (sh.txs k).isSome)
    (hend : k = i → op ≠ .tx .commit ∧ op ≠ .tx .rollback) : (sh'.txs k).isSome := by
  have others (sh₁ : Shared) (h₁ : sh₁.txs = sh.txs) (hne : k ≠ i) :
      ((sh₁.rollback i).txs k).isSome := by
    simpa only [Shared.rollback, Function.update_of_ne hne, h₁] using hk
  have begun (tx : Tx) : (Function.update sh.txs i (some tx) k).isSome := by
    by_cases hki : k = i
    · subst hki
      rw [Function.update_self]; rfl
    · rwa [Function.update_of_ne hki]
  rcases exec_cases h with ⟨rfl, -⟩ | ⟨a, r₀, hrun, -⟩
  · cases op with
    | tx op => cases op with
      | commit => exact others sh rfl fun he => (hend he).1 rfl
      | rollback => exact others sh rfl fun he => (hend he).2 rfl
      | _ => exact hk
    | _ => exact hk
  · cases op with
    | redis op => cases hrun; exact hk
    | rabbit op => cases hrun; exact hk
    | library op => cases hrun; exact hk
    | prisma op => exact (PrismaOp.run_frame hrun).2.2.1 ▸ hk
    | tx op => cases op with
      | begin => cases hrun; exact begun {}
      | rollback => cases hrun; exact others sh rfl fun he => (hend he).2 rfl
      | commit =>
        simp only [Op.run, TxOp.run, Option.map_eq_some_iff] at hrun
        obtain ⟨tx, -, he⟩ := hrun
        have hne : k ≠ i := fun he => (hend he).1 rfl
        rw [show sh' = (sh.commit i o tx).1 by rw [he]]
        unfold Shared.commit
        split
        · exact others sh rfl hne
        · dsimp only
          split
          · exact others _ rfl hne
          · exact others _ rfl hne
      | walletUpdate id v inc nv =>
        simp only [Op.run, TxOp.run, TxOp.run.write] at hrun
        repeat' split at hrun
        all_goals cases hrun
        all_goals first | exact hk | exact begun _
      | _ =>
        simp only [Op.run, TxOp.run] at hrun
        repeat' split at hrun
        all_goals cases hrun
        all_goals first | exact hk | exact begun _

/-- A session that was opened and answered for is there. -/
theorem begin_opens {r} (h : exec c i o (.tx .begin) sh = some (sh', .ok r)) :
    (sh'.txs i).isSome := by
  rcases exec_answer h with ⟨a, -, hrun⟩ | he
  · cases hrun
    simp only [Function.update_self, Option.isSome_some]
  · cases he

/-- Where the thread stands after a call: inside if it has just opened the
session or was inside and has not ended it. -/
theorem inside_after {r : Except Err op.Res} {inside : Bool} (h : insideAfter inside op r = true) :
    (op = .tx .begin ∧ ∃ a, r = .ok a) ∨
      inside = true ∧ op ≠ .tx .commit ∧ op ≠ .tx .rollback := by
  cases op with
  | tx op => cases op with
    | begin => cases r with
      | ok a => exact .inl ⟨rfl, a, rfl⟩
      | error e => exact .inr ⟨h, fun he => (by cases he), fun he => by cases he⟩
    | commit | rollback => cases h
    | _ => exact .inr ⟨h, fun he => (by cases he), fun he => by cases he⟩
  | _ => exact .inr ⟨h, fun he => (by cases he), fun he => by cases he⟩

theorem still_inside {r : Except Err op.Res} {inside : Bool} (h : op.Within inside)
    (hin : inside = true) (hend : op ≠ .tx .commit ∧ op ≠ .tx .rollback) :
    insideAfter inside op r = true := by
  subst hin
  cases op with
  | tx op => cases op with
    | begin => cases h
    | commit => exact absurd rfl hend.1
    | rollback => exact absurd rfl hend.2
    | _ => rfl
  | _ => cases h

end

section
variable {s t u : State} {l : Step} {g g' : InSession} {sh : Shared} {i k : Nat} {o : Origin}

theorem busy_set_of_ne {q : Proc Reply} (hne : i ≠ k) :
    (⟨sh, s.threads.set i ⟨o, q⟩⟩ : State).Busy k ↔ s.Busy k := by
  simp only [Config.Busy, List.getElem?_set_ne hne]

theorem Sessions.call {c op f r inside} (h : Sessions s g)
    (ht : Machine.Tracks .crashed (fun _ => sessions) (fun _ _ inside => inside = false) s.threads g)
    (hi : s.threads[i]? = some ⟨o, .call op f⟩) (hg : g i = some (o, inside))
    (he : exec c i o op s.shared = some (sh, r)) :
    Sessions ⟨sh, s.threads.set i ⟨o, f r⟩⟩
      (Function.update g i (some (o, insideAfter inside op r))) := by
  obtain ⟨_, hg', allowed, rest⟩ := ht.called hi
  cases hg.symm.trans hg'
  have hlt := (List.getElem?_eq_some_iff.mp hi).1
  -- inside of a session the program has not ended
  have busy (hin : insideAfter inside op r = true) :
      (⟨sh, s.threads.set i ⟨o, f r⟩⟩ : State).Busy i := by
    cases hf : f r with
    | ret x =>
      have outside := rest r
      rw [hf] at outside
      exact absurd (hin.symm.trans outside) (by decide)
    | call op' f' => exact ⟨o, op', f', List.getElem?_set_self hlt⟩
  constructor
  · intro id k hk
    by_cases hki : k = i
    · subst hki
      have hend : op ≠ .tx .commit ∧ op ≠ .tx .rollback := by
        constructor
        · rintro rfl; exact exec_end_locks (.inl rfl) he id hk
        · rintro rfl; exact exec_end_locks (.inr rfl) he id hk
      have hin : inside = true := by
        rcases exec_locks he hk with old | ⟨-, v, inc, nv, rfl⟩
        · obtain ⟨-, o', hgk⟩ := h.holder old
          rw [hg] at hgk
          cases hgk; rfl
        · exact allowed
      have after := still_inside (r := r) allowed hin hend
      exact ⟨busy after, o, by rw [Function.update_self, after]⟩
    · have old : s.shared.locks id = some k := (exec_locks he hk).resolve_right fun hc => hki hc.1
      obtain ⟨hb, o', hgk⟩ := h.holder old
      exact ⟨(busy_set_of_ne (Ne.symm hki)).mpr hb, o', by rwa [Function.update_of_ne hki]⟩
  · intro k o' hb hgk
    by_cases hki : k = i
    · subst hki
      rw [Function.update_self] at hgk
      rcases inside_after (congrArg Prod.snd (Option.some.inj hgk)) with ⟨rfl, a, rfl⟩ | ⟨rfl, hend⟩
      · exact begin_opens he
      · exact exec_txs he (h.opened ⟨o, op, f, hi⟩ hg) fun _ => hend
    · rw [Function.update_of_ne hki] at hgk
      exact exec_txs he (h.opened ((busy_set_of_ne (Ne.symm hki)).mp hb) hgk) fun hc => absurd hc hki

theorem Sessions.follow (h : Sessions s g)
    (ht : Machine.Tracks .crashed (fun _ => sessions) (fun _ _ inside => inside = false) s.threads g)
    (hf : Machine.Follows service .crashed (fun _ => sessions) (fun _ => false) s g l t g') :
    Sessions t g' := by
  cases hf with
  | @start o sh ha hnone =>
    have same := Origin.accept_same ha
    constructor
    · intro id k hk
      obtain ⟨⟨o', op, f, hi⟩, o'', hgk⟩ := h.holder (same.locks ▸ hk)
      have hlt := (List.getElem?_eq_some_iff.mp hi).1
      exact ⟨⟨o', op, f, (List.getElem?_append_left hlt).trans hi⟩, o'', by
        rwa [Function.update_of_ne (by omega)]⟩
    · intro k o' hb hgk
      by_cases hn : k = s.threads.length
      · subst hn
        rw [Function.update_self] at hgk
        cases hgk
      · rw [Function.update_of_ne hn] at hgk
        obtain ⟨q, hq⟩ := ht.known hgk
        have hlt := (List.getElem?_eq_some_iff.mp hq).1
        obtain ⟨o'', op, f, hi⟩ := hb
        rw [List.getElem?_append_left hlt] at hi
        exact same.txs ▸ h.opened ⟨o'', op, f, hi⟩ hgk
  | run hi hg _ he => exact h.call ht hi hg he
  | env he =>
    have same := EnvStep.run_same he
    exact ⟨fun hk => h.holder (same.locks ▸ hk), fun hb hgk => same.txs ▸ h.opened hb hgk⟩
  | @kill j o op f p hj _ =>
    have hlt := (List.getElem?_eq_some_iff.mp hj).1
    constructor
    · intro id k hk
      have hkj : k ≠ j := by
        rintro rfl
        exact (rollback_locks _ _ id).1 hk
      obtain ⟨hb, hgk⟩ := h.holder ((rollback_locks _ j id).2 k hk)
      exact ⟨(busy_set_of_ne (Ne.symm hkj)).mpr hb, hgk⟩
    · intro k o' hb hgk
      have hkj : k ≠ j := by
        rintro rfl
        obtain ⟨o'', op', f', hi⟩ := hb
        simp only [List.getElem?_set_self hlt] at hi
        cases hi
      have old := h.opened ((busy_set_of_ne (Ne.symm hkj)).mp hb) hgk
      show ((s.shared.rollback j).txs k).isSome
      simpa only [Shared.rollback, Function.update_of_ne hkj] using old

theorem Quiet.sessions (h : Quiet s) : Sessions s fun _ => none where
  holder hk := by rw [h.locks] at hk; cases hk
  opened _ hg := by cases hg

/-- Locks and sessions in every run of the whole service. -/
theorem Reach.sessions {C : State → Step → Prop} (hq : Quiet s) (h : Reach C s t) :
    ∃ g, Machine.Tracks .crashed (fun _ => Pactic.sessions) (fun _ _ inside => inside = false)
      t.threads g ∧ Sessions t g :=
  Machine.Tracks.invariant (service_closes C) (.of_nil hq.threads) hq.sessions
    (fun _ _ _ _ _ _ ht h hf => h.follow ht hf) h

/-- No lock outlives the thread that took it. -/
theorem locks_are_held_in_progress {C : State → Step → Prop} (hq : Quiet s) (h : Reach C s t)
    {id : Int} (hk : t.shared.locks id = some k) : t.Busy k := by
  obtain ⟨g, -, hs⟩ := Reach.sessions hq h
  exact (hs.holder hk).1

theorem locks_are_held_in_progress_transfer : ∃ t, Reach WalletRun State.empty t ∧
    t.shared.locks 1 = some 5 ∧ t.Busy 5 := by
  have h : (runSteps (transferPrepared 3) State.empty).any (fun t => t.shared.locks 1 = some 5) =
      true := by decide +kernel
  obtain ⟨t, ht, hl⟩ := runSteps_any h
  have reach := reach_of_runSteps rfl ht
  exact ⟨t, reach, of_decide_eq_true hl,
    locks_are_held_in_progress State.empty_quiet reach (of_decide_eq_true hl)⟩

end

/-! ## Who can move -/

/-- A statement outside of a session can be answered. -/
theorem PrismaOp.answered (op : PrismaOp) (i : Nat) (o : Origin) (sh : Shared) :
    (op.run {} i o sh).isSome := by
  cases op with
  | userFindFirst e n =>
    simp only [PrismaOp.run]
    cases sh.db.users.rows.filter fun u => u.email = e ∨ u.username = n with
    | nil => rfl
    | cons u us => rfl
  | userUpdate id d =>
    cases d with
    | none => rfl
    | some d =>
      simp only [PrismaOp.run]
      split
      · rfl
      · split <;> rfl
  | _ =>
    simp only [PrismaOp.run]
    repeat' split
    all_goals rfl

/-- A statement of an open session can be answered unless its wallet is locked
by another thread. -/
theorem TxOp.answered {op : TxOp} {i : Nat} {o : Origin} {sh : Shared}
    (h : op = .begin ∨ (sh.txs i).isSome) : (op.run {} i o sh).isSome ∨
      ∃ id v inc nv k, op = .walletUpdate id v inc nv ∧ sh.locks id = some k ∧ k ≠ i := by
  by_cases hb : op = .begin
  · subst hb
    exact .inl rfl
  obtain ⟨tx, htx⟩ := Option.isSome_iff_exists.mp (h.resolve_left hb)
  cases op with
  | begin => exact absurd rfl hb
  | walletUpdate id v inc nv =>
    have write : (TxOp.run.write i id v inc nv tx sh).isSome := by
      unfold TxOp.run.write
      split
      · rfl
      · dsimp only
        split <;> rfl
    cases hl : sh.locks id with
    | none =>
      simp only [run, htx, hl]
      exact .inl write
    | some k =>
      by_cases hki : k = i
      · simp only [run, htx, hl, hki, if_true]
        exact .inl write
      · exact .inr ⟨id, v, inc, nv, k, rfl, hl, hki⟩
  | _ =>
    refine .inl ?_
    simp only [run, htx]
    repeat' split
    all_goals rfl

section
variable {s t u : State} {g : InSession} {i k : Nat}

theorem Config.busy_lt {s : State} (h : s.Busy i) : i < s.threads.length := by
  obtain ⟨o, op, f, hi⟩ := h
  exact (List.getElem?_eq_some_iff.mp hi).1

/-- A thread in progress can be answered, or waits for another one in progress. -/
theorem Sessions.moves_or_waits (h : Sessions s g)
    (ht : Machine.Tracks .crashed (fun _ => sessions) (fun _ _ inside => inside = false) s.threads g)
    (hb : s.Busy i) : (∃ a t, step s (.run i (.ok a)) = some t) ∨
      ∃ k, s.Busy k ∧ s.lockTable.Waits i k := by
  have busy := hb
  obtain ⟨o, op, f, hi⟩ := hb
  have answered (hr : (op.run {} i o s.shared).isSome) :
      ∃ a t, step s (.run i (.ok a)) = some t := by
    obtain ⟨⟨sh, r⟩, hr⟩ := Option.isSome_iff_exists.mp hr
    exact ⟨{}, _, (Machine.step_run hi).mpr ⟨sh, r, hr, rfl⟩⟩
  cases op with
  | redis op => exact .inl (answered rfl)
  | rabbit op => exact .inl (answered rfl)
  | library op => exact .inl (answered rfl)
  | prisma op => exact .inl (answered (op.answered i o s.shared))
  | tx op =>
    have opened : op = .begin ∨ (s.shared.txs i).isSome := by
      obtain ⟨inside, hg, allowed, -⟩ := ht.called hi
      cases op with
      | begin => exact .inl rfl
      | _ => cases allowed; exact .inr (h.opened busy hg)
    rcases TxOp.answered opened with hr | ⟨id, v, inc, nv, k, rfl, hl, hki⟩
    · exact .inl (answered hr)
    · refine .inr ⟨k, (h.holder hl).1, Ne.symm hki, id, ?_, hl⟩
      simp only [State.lockTable, hi, Option.bind_some, ServiceThread.wants]

/-- Where nobody waits in a circle, some thread in progress can be answered. -/
theorem Sessions.some_moves (h : Sessions s g)
    (ht : Machine.Tracks .crashed (fun _ => sessions) (fun _ _ inside => inside = false) s.threads g)
    (acyclic : Acyclic s.lockTable.Waits) (hb : s.Busy i) :
    ∃ i a t, step s (.run i (.ok a)) = some t := by
  have fin : {i | s.Busy i}.Finite :=
    (Set.finite_lt_nat s.threads.length).subset fun _ hi => Config.busy_lt hi
  obtain ⟨k, hk, last⟩ := acyclic.exists_end fin (fun a _ b hw => by
    obtain ⟨-, x, -, hx⟩ := hw
    exact (h.holder hx).1) ⟨i, hb⟩
  rcases h.moves_or_waits ht hk with ⟨a, t, hs⟩ | ⟨k', -, hw⟩
  · exact ⟨k, a, t, hs⟩
  · exact absurd hw (last k')

end

/-! ## How many calls a program makes -/

theorem promiseAll_costs {w : Op → Nat} {c : Proc α} {d : Proc β} {n m : Nat} (hc : c.Costs w n)
    (hd : d.Costs w m) : (promiseAll c d).Costs w (n + m) := by
  have caught {γ : Type} {p : Proc γ} {k : Nat} (hp : p.Costs w k) :
      (tryCatch (do let a ← p; pure (Except.ok a)) fun e => pure (.error e) :
        Proc (Except Err γ)).Costs w k :=
    (hp.bind (m := 0) fun _ => .ret _ _).tryCatch (m := 0) fun _ => .ret _ _
  refine (caught hc).bind fun a => (caught hd).bind (m := 0) fun b => ?_
  cases a with
  | error e => exact .ret _ _
  | ok a => cases b with
    | error e => exact .ret _ _
    | ok b => exact .ret _ _

theorem transaction_within {body : Proc α} {n : Nat} (h : body.Within n) :
    (Prisma.transaction body).Within (n + 3) := by
  have whole : (Prisma.transaction body).Within (1 + (n + 1 + 1)) :=
    .bind (.perform _) fun _ => .bind (.tryCatch h fun e => .bind (m := 0) (.perform _)
      fun _ => .ret _ _) fun _ => .bind (m := 0) (.perform _) fun _ => .ret _ _
  exact whole.mono (by omega)

theorem checkWallet_within (w u c m) : (checkWallet w u c m).Within 0 := by
  cases w with
  | none => exact .ret _ _
  | some w => simp only [checkWallet]; split <;> exact .ret _ _

theorem sendToQueue_within (q data x) : (sendToQueue q data x).Within 2 :=
  .tryCatch (m := 0) (.bind (.perform _) fun _ => .perform _) fun _ => .ret _ _

theorem prependTransaction_within (u row) : (prependTransaction u row).Within 2 := by
  refine .bind (m := 1) (.perform _) fun cached => ?_
  cases cached with
  | none => exact .ret _ _
  | some list => exact .perform _

/-- Two calls for the cached status and one for the request row, then those of `c`. -/
theorem guarded_within {c : Proc Unit} {n : Nat} (h : c.Within n) (u cur t) : (do
    if ← alreadyProcessed t then pure ()
    else if ← preLog u cur t then c
    else pure () : Proc Unit).Within (2 + (1 + n)) := by
  have processed : (alreadyProcessed t).Within 2 := by
    refine .bind (m := 1) (.perform _) fun cached => ?_
    cases cached with
    | none => exact .ret _ _
    | some parsed =>
      dsimp only
      split
      · exact .ret _ _
      · exact .bind (m := 0) (.perform _) fun _ => .ret _ _
  have logged : (preLog u cur t).Within 1 := by
    refine .tryCatch (m := 0) (.bind (m := 0) (.perform _) fun _ => .ret _ _) fun err => ?_
    split <;> exact .ret _ _
  refine processed.bind fun skip => ?_
  cases skip with
  | true => exact .ret _ _
  | false =>
    refine logged.bind fun mine => ?_
    cases mine with
    | true => exact h
    | false => exact .ret _ _

theorem markFailed_within (t) : (markFailed t).Within 2 :=
  .bind (.perform _) fun _ => .perform _

theorem fundingHandler_within (d : FundWalletDto) : (fundingHandler d).Within 27 := by
  have body : (fundingTransaction d).Within 4 := by
    refine .bind (m := 3) (.perform _) fun w => ?_
    cases w with
    | none => exact .ret _ _
    | some w =>
      exact .bind (.perform _) fun _ => .bind (.perform _) fun _ => .bind (m := 0) (.perform _)
        fun _ => .ret _ _
  have work : (fund d).Within (1 + (0 + (7 + (1 + (2 + 2))))) :=
    .bind (.perform _) fun _ => .bind (checkWallet_within _ _ _ _) fun _ =>
      .bind (transaction_within body) fun _ => .bind (.perform _) fun _ =>
        .bind (prependTransaction_within _ _) fun _ => sendToQueue_within _ _ _
  have handler : (fundingHandler d).Within (2 + (1 + 13) + 2) :=
    .tryCatch (guarded_within work _ _ _) fun _ => .bind (m := 0) (markFailed_within _)
      fun _ => .ret _ _
  exact handler.mono (by omega)

theorem withdrawalHandler_within (d : WithdrawWalletDto) : (withdrawalHandler d).Within 27 := by
  have body : (withdrawalTransaction d).Within (1 + (0 + 3)) := by
    refine .bind (.perform _) fun _ => .bind (checkWallet_within _ _ _ _) fun w => ?_
    split
    · exact .ret _ _
    · exact .bind (.perform _) fun _ => .bind (.perform _) fun _ => .bind (m := 0) (.perform _)
        fun _ => .ret _ _
  have work : (withdraw d).Within (7 + (1 + (1 + (2 + 2)))) :=
    .bind (transaction_within body) fun _ => .bind (.perform _) fun _ => .bind (.perform _) fun _ =>
      .bind (prependTransaction_within _ _) fun _ => sendToQueue_within _ _ _
  have handler : (withdrawalHandler d).Within (2 + (1 + 13) + 2) :=
    .tryCatch (guarded_within work _ _ _) fun _ => markFailed_within _
  exact handler.mono (by omega)

theorem transferHandler_within (d : TransferWalletDto) : (transferHandler d).Within 27 := by
  have body : (transferTransaction d).Within (1 + (1 + (0 + (0 + 4)))) := by
    refine .bind (.perform _) fun _ => .bind (.perform _) fun _ =>
      .bind (checkWallet_within _ _ _ _) fun w => .bind (checkWallet_within _ _ _ _) fun v => ?_
    split
    · exact .ret _ _
    · exact .bind (.perform _) fun _ => .bind (.perform _) fun _ => .bind (.perform _) fun _ =>
        .perform _
  have work : (transfer d).Within (9 + (1 + (1 + 1 + (2 + (2 + (1 + 1 + (2 + 2 + 0))))))) :=
    .bind (transaction_within body) fun _ => .bind (.perform _) fun _ =>
      .bind (promiseAll_costs (.perform _) (.perform _)) fun rows =>
        .bind (prependTransaction_within _ _) fun _ => .bind (prependTransaction_within _ _) fun _ =>
          .bind (promiseAll_costs (.perform _) (.perform _)) fun _ =>
            .bind (promiseAll_costs (sendToQueue_within _ _ _) (sendToQueue_within _ _ _))
              fun _ => .ret _ _
  have handler : (transferHandler d).Within (2 + (1 + 22) + 2) :=
    .tryCatch (guarded_within work _ _ _) fun _ => .bind (m := 0) (markFailed_within _)
      fun _ => .ret _ _
  exact handler

theorem consume_within {q : Queue} {handler : Proc Unit} (h : handler.Within 27) (m : Message) :
    (consume q handler m).Within 30 := by
  refine .tryCatch (m := 3) h fun _ => ?_
  split
  · exact .bind (sendToQueue_within _ _ _) fun _ => .perform _
  · exact .bind (sendToQueue_within _ _ _) fun _ => .perform _

theorem deliver_within {m : Message} {c : Proc Unit} (h : deliver m = some c) : c.Within 30 := by
  unfold deliver at h
  split at h
  · cases h; exact consume_within (fundingHandler_within _) m
  · cases h; exact consume_within (withdrawalHandler_within _) m
  · cases h; exact consume_within (transferHandler_within _) m
  · next n _ _ =>
    cases h
    refine consume_within ?_ m
    unfold notificationHandler
    split
    · exact .ret _ _
    · exact (Prog.Costs.tryCatch (m := 0) (.perform _) fun _ => .ret _ _).mono (by omega)
  · cases h; exact consume_within ((Prog.Costs.perform _).mono (by omega)) m
  · cases h

/-- The reply is built without a call. -/
theorem answer_costs {w : Op → Nat} {c : Proc α} {n : Nat} (h : c.Costs w n) (f : α → Reply) :
    (do let a ← c; pure (f a) : Proc Reply).Costs w n :=
  .bind (m := 0) h fun _ => .ret _ _

/-- So is the token checked. -/
theorem checked_costs {w : Op → Nat} {c : Proc β} {n : Nat} (h : c.Costs w n) (u tok : Int) :
    (do validateTokenUser u tok; c : Proc β).Costs w n := by
  unfold validateTokenUser
  split
  · trivial
  · exact h

theorem createWallet_within (u c t) : (WalletsService.createWallet u c t).Within 10 := by
  refine .bind (m := 9) (.perform _) fun cached => ?_
  split
  · exact .ret _ _
  refine .bind (m := 8) (.perform _) fun recorded => ?_
  unfold WalletsService.createUnlessRecorded
  split
  · exact (Prog.Costs.bind (m := 0) (.perform _) fun _ => .ret _ _).mono (by omega)
  refine .bind (m := 7) (.perform _) fun found => ?_
  cases found with
  | some w => exact .ret _ _
  | none =>
    refine .bind (m := 6) (.perform _) fun w => .bind (m := 5) (.perform _) fun _ =>
      .bind (m := 4) (.perform _) fun _ => .bind (m := 2) (sendToQueue_within _ _ _) fun _ =>
        .bind (m := 0) ?_ fun _ => .ret _ _
    refine .bind (m := 1) (.perform _) fun list => ?_
    cases list with
    | none => exact .ret _ _
    | some ws => exact .perform _

theorem enqueueUnlessUsed_within (c q : String) (j : Job) :
    (WalletsService.enqueueUnlessUsed c q j).Within 4 := by
  refine .bind (m := 3) (.perform _) fun cached => ?_
  split
  · exact .ret _ _
  · refine .bind (m := 2) (.perform _) fun found => ?_
    cases found with
    | some r => exact (Prog.Costs.bind (m := 0) (.perform _) fun _ => .ret _ _).mono (by omega)
    | none => exact .bind (m := 0) (sendToQueue_within _ _ _) fun _ => .ret _ _

theorem fundWallet_within (b : FundWalletDto) : (WalletsService.fundWallet b).Within 4 := by
  refine .bind (m := 3) (.perform _) fun cached => ?_
  cases cached with
  | some v => exact .ret _ _
  | none =>
    refine .bind (m := 2) (.perform _) fun found => ?_
    cases found with
    | some r => exact (Prog.Costs.bind (m := 0) (.perform _) fun _ => .ret _ _).mono (by omega)
    | none => exact .bind (m := 0) (sendToQueue_within _ _ _) fun _ => .ret _ _

theorem getUserWallets_within (u : Int) : (WalletsService.getUserWallets u).Within 3 := by
  refine .bind (m := 2) (.perform _) fun cached => ?_
  cases cached with
  | some ws => exact .ret _ _
  | none => exact .bind (m := 1) (.perform _) fun _ => .bind (m := 0) (.perform _) fun _ => .ret _ _

theorem signup_within (b : CreateUserDto) : (UsersService.create b).Within 3 := by
  refine .bind (m := 2) (.perform _) fun found => ?_
  split
  · exact .ret _ _
  · exact .bind (m := 1) (.perform _) fun _ => .bind (m := 0) (.perform _) fun _ => .ret _ _

theorem login_within (b : LoginUserDto) (ip ua : String) :
    (UsersService.login b ip ua).Within 4 := by
  refine .bind (m := 3) (.perform _) fun found => ?_
  cases found with
  | none =>
    exact (Prog.Costs.bind (n := 0) (.ret 0 _) fun ok => .bind (m := 0) (sendToQueue_within _ _ _)
      fun _ => .ret _ _).mono (by omega)
  | some u =>
    refine .bind (m := 2) (.perform _) fun ok =>
      .bind (m := 0) (sendToQueue_within _ _ _) fun _ => ?_
    dsimp only
    split
    · exact .ret _ _
    · split <;> exact .ret _ _

theorem getProfile_within (u : Int) : (UsersService.getProfile u).Within 3 := by
  refine .bind (m := 2) (.perform _) fun cached => ?_
  cases cached with
  | some p => exact .ret _ _
  | none =>
    refine .bind (m := 1) (.perform _) fun found => ?_
    cases found with
    | none => exact .ret _ _
    | some u => exact .bind (m := 0) (.perform _) fun _ => .ret _ _

theorem updateProfile_within (client : Client) (u : Int) (dto : JsonObject) :
    (UsersService.updateProfile client u dto).Within 3 :=
  .bind (m := 2) (.perform _) fun _ => .bind (m := 1) (.perform _) fun _ =>
    .bind (m := 0) (.perform _) fun _ => .ret _ _

theorem deleteUser_within (u : Int) : (UsersService.deleteUser u).Within 4 := by
  refine .bind (m := 3) (.perform _) fun found => ?_
  split
  · exact .ret _ _
  split
  · exact .ret _ _
  · exact .bind (m := 2) (.perform _) fun _ => .bind (m := 1) (.perform _) fun _ =>
      .bind (m := 0) (.perform _) fun _ => .ret _ _

theorem Request.program_within (tok : Int) (r : Request) : (r.program tok).Within 30 := by
  cases r with
  | createWallet b =>
    exact (checked_costs (answer_costs (createWallet_within _ _ _) _) _ _).mono (by omega)
  | fundWallet b => exact (checked_costs (fundWallet_within b) _ _).mono (by omega)
  | getUserWallets u =>
    exact (checked_costs (answer_costs (getUserWallets_within u) _) _ _).mono (by omega)
  | withdrawFromWallet b =>
    exact (checked_costs (enqueueUnlessUsed_within _ _ _) _ _).mono (by omega)
  | transferFunds b =>
    exact (checked_costs (enqueueUnlessUsed_within _ _ _) _ _).mono (by omega)
  | signup b => exact (answer_costs (signup_within b) _).mono (by omega)
  | login b ip ua => exact (answer_costs (login_within b ip ua) _).mono (by omega)
  | getProfile u =>
    exact (checked_costs (answer_costs (getProfile_within u) _) _ _).mono (by omega)
  | updateProfile body client =>
    simp only [Request.program, UsersController.updateProfile]
    split
    · exact .ret _ _
    · exact (checked_costs (answer_costs (updateProfile_within _ _ _) _) _ _).mono (by omega)
  | deleteUser u => exact (checked_costs (deleteUser_within u) _ _).mono (by omega)

theorem Origin.program_within (o : Origin) : o.program.Within 30 := by
  cases o with
  | http tok r => exact r.program_within tok
  | delivery m =>
    refine .bind (m := 0) ?_ fun _ => .ret _ _
    cases hd : deliver m with
    | none => exact .ret _ _
    | some c => exact deliver_within hd

/-- A thread that has ended makes no call, each of the others thirty at most. -/
theorem calls_length_le {s t : State} (h : ∀ th ∈ s.threads, th.prog.Within 30) {ls : List Step}
    (hls : ∀ l ∈ ls, ∃ i c, l = .run i c) (hr : runSteps ls s = some t) :
    ls.length ≤ 30 * s.threads.countP fun th => !th.prog.finished := by
  have spends : Machine.Spends (fun _ => 0) (fun _ n => n) service (fun _ => spending fun _ => 1)
      (fun _ => 30) (fun _ => 0) fun _ l => ∃ i c, l = .run i c := {
    start := fun _ _ _ hc => by obtain ⟨i, c, hc⟩ := hc; cases hc
    run := fun _ _ _ _ _ _ _ _ p _ _ (one : 1 ≤ p) _ => by
      show 0 + 0 + (p - 1) < 0 + 0 + p
      omega
    env := fun _ _ _ hc => by obtain ⟨i, c, hc⟩ := hc; cases hc
    kill := fun _ _ hc => by obtain ⟨i, c, hc⟩ := hc; cases hc }
  have bound := spends.length_le (f := fun th => if !th.prog.finished then 30 else 0)
    Origin.program_within (fun th hth => ?_)
    (Machine.counts_of_runs (fun l hl _ => hls l hl) .refl hr)
  · rw [List.sum_map_ite] at bound
    simpa [List.countP_eq_length_filter, Nat.mul_comm] using bound
  · obtain ⟨o, q⟩ := th
    cases q with
    | ret r => trivial
    | call op k => exact h _ hth

/-- Without circles of payments a service that is busy can go on, and one that is
idle has no wallet locked. -/
theorem Reach.rests_or_moves {s t : State} (hq : Quiet s) (reach : Reach NoCircle s t) :
    (t.idle = true ∧ ∀ id, t.shared.locks id = none) ∨
      ∃ i a u, step t (.run i (.ok a)) = some u := by
  obtain ⟨g, ht, locked⟩ := (locked_stable NoCircle _).invariant
    (service_obeys fun _ _ hc => hc.1) hq.tracks hq.locked reach
  have acyclic := LockTable.acyclic_waits
    ((reach.acyclic_pays hq).mono fun a b => locked.pays ht)
  obtain ⟨g', ht', open_⟩ := Reach.sessions hq reach
  by_cases idle : t.idle = true
  · refine .inl ⟨idle, fun id => ?_⟩
    cases hl : t.shared.locks id with
    | none => rfl
    | some k => exact absurd (open_.holder hl).1 (Config.idle_iff.mp idle k)
  · obtain ⟨i, busy⟩ := not_forall_not.mp fun hn => idle (Config.idle_iff.mpr hn)
    exact .inr (open_.some_moves ht' acyclic busy)

/-- While no transfer is delivered that closes a circle of payments, the calls
in progress come to an end however they are made and answered: no thread has more
than thirty left, so there are at most thirty for each thread in progress, one of
them can be answered as long as there are any, and when there are none no wallet
is locked. -/
theorem calls_in_progress_end {s t u : State} (hq : Quiet s) (h : Reach NoCircle s t)
    {ls : List Step} (hls : ∀ l ∈ ls, ∃ i c, l = .run i c) (hr : runSteps ls t = some u) :
    (∀ th ∈ t.threads, th.prog.Within 30) ∧
      ls.length ≤ 30 * t.threads.countP (fun th => !th.prog.finished) ∧
      ((u.idle = true ∧ ∀ id, u.shared.locks id = none) ∨
        ∃ i a v, step u (.run i (.ok a)) = some v) := by
  have within : ∀ th ∈ t.threads, th.prog.Within 30 :=
    Machine.Reach.costs (b := fun _ => 30) Origin.program_within hq.threads h
  have reach : Reach NoCircle s u := by
    refine h.trans (Machine.reach_of_runs (fun l hl v => ?_) hr)
    obtain ⟨i, c, rfl⟩ := hls l hl
    exact ⟨rfl, fun m d hm => by cases hm⟩
  exact ⟨within, calls_length_le within hls hr, Reach.rests_or_moves hq reach⟩

/-- A transfer about to commit holds a lock and has calls left after it. -/
theorem calls_in_progress_end_transfer : ∃ t u, Reach NoCircle State.empty t ∧
    t.shared.locks 1 = some 5 ∧ runSteps (calls 5 1) t = some u ∧
    (∀ th ∈ t.threads, th.prog.Within 30) ∧
      (calls 5 1).length ≤ 30 * t.threads.countP (fun th => !th.prog.finished) ∧
      ((u.idle = true ∧ ∀ id, u.shared.locks id = none) ∨
        ∃ i a v, step u (.run i (.ok a)) = some v) := by
  have h : ((service.runsIf .crashed noPayback (transferPrepared 3) State.empty).bind fun t =>
      (runSteps (calls 5 1) t).map fun _ => decide (t.shared.locks 1 = some 5)) = some true := by
    decide +kernel
  simp only [Option.bind_eq_some_iff, Option.map_eq_some_iff] at h
  obtain ⟨t, ht, u, hu, hl⟩ := h
  have reach := Machine.reach_of_runsIf (fun _ _ => noCircle_of_noPayback) ht
  refine ⟨t, u, reach, of_decide_eq_true hl, hu, calls_in_progress_end State.empty_quiet reach ?_ hu⟩
  intro l hl
  exact ⟨5, .ok {}, List.eq_of_mem_replicate hl⟩

end Pactic
