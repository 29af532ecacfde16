import Pactic.Model.Http
import Pactic.Protocol.Messages
import Pactic.Protocol.Scope

/-! # Refused requests

A request that is answered with a client error has changed no row and published
nothing but a login attempt. Every check that refuses comes before the first
write, and a call of the database, the cache or the broker that fails is an
internal error. -/
namespace Pactic
open Resumption

/-- A call that changes a row or publishes more than a login attempt. -/
def Op.takesEffect : Op → Bool
  | .prisma (.walletRequestCreate _) | .prisma (.walletRequestUpdateMany _ _)
  | .prisma (.walletCreate _ _) | .prisma (.notificationCreate _) | .prisma (.loginLogCreate _)
  | .prisma (.userUpsert _ _ _) | .prisma (.userUpdate _ _) => true
  | .tx _ => true
  | .rabbit (.sendToQueue _ (.login _) _) => false
  | .rabbit (.sendToQueue _ _ _) => true
  | _ => false

def Err.isHttp (e : Err) : Bool := e.httpException?.isSome

/-- Where a request stands. A call never answers with an exception of the
controllers, so no thread is ever `odd`. -/
inductive Footprint where
  | untouched | touched | odd
  deriving DecidableEq

def Footprint.next (p : Footprint) (op : Op) : Except Err op.Res → Footprint
  | .error e => if e.isHttp then .odd else if op.takesEffect then .touched else p
  | .ok _ => if op.takesEffect then .touched else p

/-- The request is refused. -/
def Refused : Except Err Reply → Prop
  | .error e => e.isHttp = true
  | .ok (.duplicate _ _) => True
  | .ok _ => False

def refusing (_ : Origin) : Monitor Op Op.Res Err Footprint := ⟨fun _ _ => True, Footprint.next⟩

/-- A request that is refused has touched nothing. -/
def Spotless (o : Origin) (r : Except Err Reply) (p : Footprint) : Prop :=
  ∀ tok q, o = .http tok q → Refused r → p ≠ .touched

section
variable {α β : Type} {o : Origin} {p : Footprint}

/-- The calls take no effect. -/
abbrev Effectless (c : Proc α) : Prop := c.Only fun op => op.takesEffect = false

/-- No outcome is in `R`. -/
def Plain (o : Origin) (R : Except Err α → Prop) (c : Proc α) : Prop :=
  ∀ p, (refusing o).wp c (fun r q => R r → q = .odd) p

/-- An outcome in `R` has touched nothing. -/
def Clean (o : Origin) (R : Except Err α → Prop) (c : Proc α) : Prop :=
  ∀ p, p ≠ .touched → (refusing o).wp c (fun r q => R r → q ≠ .touched) p

def HttpError : Except Err α → Prop
  | .error e => e.isHttp = true
  | .ok _ => False

theorem Footprint.next_untouched {op : Op} (h : op.takesEffect = false) (hp : p ≠ .touched)
    (r : Except Err op.Res) : p.next op r ≠ .touched := by
  cases r with
  | ok a => simpa [next, h] using hp
  | error e =>
    simp only [next, h]
    split
    · simp
    · exact hp

theorem Effectless.untouched {c : Proc α} (h : Effectless c) (hp : p ≠ .touched) :
    (refusing o).wp c (fun _ q => q ≠ .touched) p :=
  Monitor.wp_of_keeps _ (I := fun p => p ≠ Footprint.touched)
    (fun _ _ hp hop => ⟨trivial, Footprint.next_untouched hop hp⟩) h hp

namespace Clean
variable {R : Except Err α → Prop} {c : Proc α}

theorem ret (r : Except Err α) : Clean o R (.ret r) := fun _ hp _ => hp

theorem of_effectless (h : Effectless c) : Clean o R c :=
  fun _ hp => Monitor.wp_mono _ (Effectless.untouched h hp) fun _ _ hq _ => hq

/-- What comes before the first effect does not count. -/
theorem after {d : Proc β} {f : β → Proc α} (hd : Effectless d) (hf : ∀ b, Clean o R (f b)) :
    Clean o R (d >>= f) := by
  intro p hp
  refine (Monitor.wp_bind _ _ _ _ _).mpr (Monitor.wp_mono _ (Effectless.untouched hd hp) fun r q hq => ?_)
  cases r with
  | ok b => exact hf b q hq
  | error e => exact fun _ => hq

theorem of_plain (h : Plain o R c) : Clean o R c := by
  intro p _
  refine Monitor.wp_mono _ (h p) fun r q hq hr touched => ?_
  rw [hq hr] at touched
  cases touched

/-- What a service throws its controller throws, too. -/
theorem answer {S : Except Err β → Prop} {f : α → β} (h : Clean o HttpError c)
    (hS : ∀ a, ¬ S (.ok (f a))) (he : ∀ e, S (.error e) → e.isHttp = true) :
    Clean o S (do let a ← c; pure (f a)) := by
  intro p hp
  refine (Monitor.wp_bind _ _ _ _ _).mpr (Monitor.wp_mono _ (h p hp) fun r q hq => ?_)
  cases r with
  | ok a => exact fun hs => absurd hs (hS a)
  | error e => exact fun hs => hq (he e hs)

end Clean

namespace Plain
variable {R : Except Err α → Prop}

theorem ok {a : α} (h : ¬ R (.ok a)) : Plain o R (.ret (.ok a)) := fun _ hr => absurd hr h

theorem perform (op : Op) : Plain o HttpError (.perform op : Proc op.Res) := by
  refine fun p => ⟨trivial, fun r hr => ?_⟩
  cases r with
  | ok a => exact hr.elim
  | error e => exact if_pos hr

theorem bind {c : Proc β} {f : β → Proc α} (hc : Plain o HttpError c) (hf : ∀ a, Plain o R (f a))
    (he : ∀ e, R (.error e) → e.isHttp = true) : Plain o R (c >>= f) := by
  intro p
  refine (Monitor.wp_bind _ _ _ _ _).mpr (Monitor.wp_mono _ (hc p) fun r q hq => ?_)
  cases r with
  | ok a => exact hf a q
  | error e => exact fun hr => hq (he e hr)

/-- `sendToQueue` never throws. -/
theorem sendToQueue (q : Queue) (data : Payload) (x : Option Nat) :
    Plain o HttpError (Pactic.sendToQueue q data x) := by
  have ends : Plain o HttpError (pure () : Proc Unit) := .ok id
  intro p
  refine ⟨trivial, fun asserted => ?_⟩
  cases asserted with
  | error e => exact ends _
  | ok _ =>
    refine ⟨trivial, fun sent => ?_⟩
    cases sent with
    | error e => exact ends _
    | ok _ => exact ends _

end Plain

/-! ## The endpoints -/

theorem insertWallet_plain (u : Int) (cur t : String) :
    Plain o HttpError (WalletsService.insertWallet u cur t) := by
  have prepended (w : Wallet) : Plain o HttpError (WalletsService.prependWallet u w) := by
    refine .bind (.perform _) (fun cached => ?_) fun _ => id
    cases cached with
    | none => exact .ok id
    | some parsed => exact .perform _
  exact .bind (.perform _) (fun w => .bind (.perform _) (fun r => .bind (.perform _) (fun _ =>
    .bind (.sendToQueue _ _ _) (fun _ => .bind (prepended w) (fun _ => .ok id) fun _ => id)
      fun _ => id) fun _ => id) fun _ => id) fun _ => id

theorem createWallet_clean (u : Int) (cur t : String) :
    Clean o HttpError (WalletsService.createWallet u cur t) := by
  refine .after (.perform rfl) fun cached => ?_
  split
  · exact .ret _
  refine .after (.perform rfl) fun existing => ?_
  unfold WalletsService.createUnlessRecorded
  split
  · exact .after (.perform rfl) fun _ => .ret _
  refine .after (.perform rfl) fun found => ?_
  cases found with
  | some _ => exact .ret _
  | none => exact .of_plain (insertWallet_plain u cur t)

/-- A published job is queued, whatever becomes of it. -/
theorem queued_clean (q : Queue) (j : Job) (message : String) : Clean o Refused (do
    sendToQueue q (.job j) none
    pure (.queued message j)) :=
  .of_plain (.bind (.sendToQueue _ _ _) (fun _ => .ok id) fun _ => id)

theorem fundWallet_clean (b : FundWalletDto) : Clean o Refused (WalletsService.fundWallet b) := by
  refine .after (.perform rfl) fun cached => ?_
  cases cached with
  | some _ => exact .ret _
  | none =>
    refine .after (.perform rfl) fun existing => ?_
    cases existing with
    | some _ => exact .after (.perform rfl) fun _ => .ret _
    | none => exact queued_clean _ (.funding b) _

theorem enqueueUnlessUsed_clean (conflict queued : String) (j : Job) :
    Clean o Refused (WalletsService.enqueueUnlessUsed conflict queued j) := by
  refine .after (.perform rfl) fun cached => ?_
  split
  · exact .ret _
  refine .after (.perform rfl) fun existing => ?_
  cases existing with
  | some _ => exact .after (.perform rfl) fun _ => .ret _
  | none => exact queued_clean _ j _

theorem create_clean (b : CreateUserDto) : Clean o HttpError (UsersService.create b) := by
  refine .after (.perform rfl) fun found => ?_
  split
  · exact .ret _
  exact .after (.perform rfl) fun hash =>
    .of_plain (.bind (.perform _) (fun user => .ok id) fun _ => id)

theorem login_effectless (b : LoginUserDto) (ip ua : String) :
    Effectless (UsersService.login b ip ua) := by
  have told (l : LoginAttempt) : Effectless (sendToQueue .loginLogs (.login l) none) :=
    .tryCatch (.bind (.perform rfl) fun _ => .perform rfl) fun _ => trivial
  refine .bind (.perform rfl) fun found => ?_
  cases found with
  | none => exact .bind trivial fun _ => .bind (told _) fun _ => trivial
  | some u =>
    refine .bind (.perform rfl) fun ok => .bind (told _) fun _ => ?_
    dsimp only
    split
    · trivial
    · split <;> trivial

theorem getProfile_effectless (u : Int) : Effectless (UsersService.getProfile u) := by
  refine .bind (.perform rfl) fun cached => ?_
  cases cached with
  | some _ => trivial
  | none =>
    refine .bind (.perform rfl) fun found => ?_
    cases found with
    | none => trivial
    | some u => exact .bind (.perform rfl) fun _ => trivial

theorem getUserWallets_effectless (u : Int) : Effectless (WalletsService.getUserWallets u) := by
  refine .bind (.perform rfl) fun cached => ?_
  cases cached with
  | some _ => trivial
  | none => exact .bind (.perform rfl) fun _ => .bind (.perform rfl) fun _ => trivial

theorem updateProfile_plain (client : Client) (u : Int) (dto : JsonObject) :
    Plain o HttpError (UsersService.updateProfile client u dto) :=
  .bind (.perform _) (fun _ => .bind (.perform _) (fun _ => .bind (.perform _) (fun _ => .ok id)
    fun _ => id) fun _ => id) fun _ => id

theorem deleteUser_clean (u : Int) : Clean o Refused (UsersService.deleteUser u) := by
  refine .after (.perform rfl) fun found => ?_
  cases found with
  | none => exact .ret _
  | some user =>
    dsimp only
    split
    · exact .ret _
    · exact .after (.perform rfl) fun now => .of_plain (.bind (.perform _) (fun deleted =>
        .bind (.perform _) (fun _ => .ok id) fun _ => id) fun _ => id)

theorem Request.program_clean (tok : Int) (r : Request) : Clean o Refused (r.program tok) := by
  have checked {u : Int} {c : Proc Reply} (h : Clean o Refused c) :
      Clean o Refused (do validateTokenUser u tok; c) := by
    unfold validateTokenUser
    split
    · exact .ret _
    · exact h
  cases r with
  | createWallet b => exact checked (.answer (createWallet_clean _ _ _) (fun _ => id) fun _ => id)
  | fundWallet b => exact checked (fundWallet_clean b)
  | getUserWallets u =>
    exact checked (.of_effectless (.bind (getUserWallets_effectless u) fun _ => trivial))
  | withdrawFromWallet b => exact checked (enqueueUnlessUsed_clean _ _ _)
  | transferFunds b => exact checked (enqueueUnlessUsed_clean _ _ _)
  | signup b => exact .answer (create_clean b) (fun _ => id) fun _ => id
  | login b ip ua => exact .of_effectless (.bind (login_effectless b ip ua) fun _ => trivial)
  | getProfile u =>
    exact checked (.of_effectless (.bind (getProfile_effectless u) fun _ => trivial))
  | updateProfile body client =>
    simp only [program, UsersController.updateProfile]
    split
    · exact .ret _
    · exact checked (.answer (.of_plain (updateProfile_plain _ _ _)) (fun _ => id)
        fun _ => id)
  | deleteUser u => exact checked (deleteUser_clean u)

end

/-! ## What a call takes effect on -/

section
variable {c : Choice} {i : Nat} {o : Origin} {op : Op} {sh sh' : Shared} {r : Except Err op.Res}
  {p : Footprint}

/-- A call fails with an internal error. -/
theorem exec_internal {e : Err} (h : exec c i o op sh = some (sh', r)) (hr : r = .error e) :
    e.isHttp = false := by
  subst hr
  rcases exec_answer h with ⟨a, -, hrun⟩ | hr
  · cases op with
    | prisma op =>
      cases op with
      | userUpdate id d =>
        cases d with
        | none => cases hrun; rfl
        | some d =>
          simp only [Op.run, PrismaOp.run] at hrun
          (repeat' split at hrun) <;> cases hrun <;> rfl
      | userFindFirst e n =>
        simp only [Op.run, PrismaOp.run] at hrun
        split at hrun
        · cases hrun
        · obtain ⟨u, -, he⟩ := Option.map_eq_some_iff.mp hrun
          cases he
      | _ =>
        simp only [Op.run, PrismaOp.run] at hrun
        (repeat' split at hrun) <;> cases hrun <;> rfl
    | tx op =>
      cases op with
      | commit =>
        simp only [Op.run, TxOp.run, Option.map_eq_some_iff] at hrun
        obtain ⟨tx, -, hc⟩ := hrun
        unfold Shared.commit at hc
        split at hc <;> cases hc
        rfl
      | _ =>
        simp only [Op.run, TxOp.run, TxOp.run.write] at hrun
        (repeat' split at hrun) <;> cases hrun <;> rfl
    | _ => cases hrun
  · cases hr
    rfl

/-- A call that takes no effect leaves the rows as they are and publishes login
attempts at most. -/
theorem exec_effectless (hop : op.takesEffect = false) (h : exec c i o op sh = some (sh', r)) :
    sh'.db = sh.db ∧ ∀ m, sh'.broker.Holds m → sh.broker.Holds m ∨ ∃ l, m.data = .login l := by
  constructor
  · rcases exec_cases h with ⟨rfl, -⟩ | ⟨a, r₀, hrun, -⟩
    · cases op with
      | tx op => cases hop
      | _ => rfl
    · cases op with
      | prisma op =>
        cases op with
        | userFindFirst e n =>
          simp only [Op.run, PrismaOp.run] at hrun
          split at hrun
          · cases hrun; rfl
          · obtain ⟨u, -, he⟩ := Option.map_eq_some_iff.mp hrun
            cases he
            rfl
        | _ => first | (cases hrun; rfl) | cases hop
      | tx op => cases hop
      | _ => cases hrun; rfl
  · intro m hm
    rcases exec_broker h with same | ⟨op', rfl, run⟩
    · exact .inl (same ▸ hm)
    · rcases RabbitOp.run_holds (run ▸ hm) with hm | ⟨q, data, x, rfl, rfl⟩
      · exact .inl hm
      · cases data with
        | login l => exact .inr ⟨l, rfl⟩
        | _ => cases hop

theorem Footprint.next_ne_odd (h : exec c i o op sh = some (sh', r)) (hp : p ≠ .odd) :
    p.next op r ≠ .odd := by
  cases r with
  | ok a =>
    simp only [next]
    split
    · simp
    · exact hp
  | error e =>
    have internal : ¬ e.isHttp = true := by simp [exec_internal h rfl]
    simp only [next, if_neg internal]
    split
    · simp
    · exact hp

theorem Footprint.next_touched (h : p.next op r ≠ .odd) (hp : op.takesEffect = true ∨ p = .touched) :
    p.next op r = .touched := by
  cases r with
  | ok a =>
    simp only [next] at h ⊢
    split
    · rfl
    · next quiet => exact hp.resolve_left quiet
  | error e =>
    simp only [next] at h ⊢
    split
    · next http => exact absurd (if_pos http) h
    · split
      · rfl
      · next quiet => exact hp.resolve_left quiet

end

/-! ## Runs -/

theorem service_refusing (C : State → Step → Prop) :
    Machine.Obeys service refusing Spotless (fun _ => .untouched) C := by
  intro s o sh _ _
  cases o with
  | http tok r =>
    refine Monitor.wp_mono _ (Request.program_clean tok r .untouched (by simp)) fun res q hq => ?_
    exact fun _ _ _ => hq
  | delivery m =>
    refine Monitor.wp_mono _ (Monitor.wp_of_allow _ (fun _ _ => trivial) _ _) fun res q _ => ?_
    intro tok r he
    cases he

/-- No thread is odd. -/
def Sober (g : Machine.Ghost Origin Footprint) : Prop := ∀ i o p, g i = some (o, p) → p ≠ .odd

/-- The thread has taken effect. -/
def Touched (i : Nat) (g : Machine.Ghost Origin Footprint) : Prop := ∃ o, g i = some (o, .touched)

section
variable {s t : State} {l : Step} {i : Nat} {g g' : Machine.Ghost Origin Footprint}

theorem Sober.update {o : Origin} {p : Footprint} (h : Sober g) (hp : p ≠ .odd) :
    Sober (Function.update g i (some (o, p))) := by
  intro k o' p' hk
  by_cases hki : k = i
  · subst hki
    rw [Function.update_self] at hk
    cases hk
    exact hp
  · rw [Function.update_of_ne hki] at hk
    exact h k o' p' hk

theorem Sober.follow (h : Sober g)
    (hf : Machine.Follows service .crashed refusing (fun _ => .untouched) s g l t g') : Sober g' := by
  cases hf with
  | start _ _ => exact h.update (by simp)
  | run _ hg _ he => exact h.update (Footprint.next_ne_odd he (h _ _ _ hg))
  | env _ => exact h
  | kill _ _ => exact h

theorem Touched.follow (h : Touched i g) (sober : Sober g')
    (hf : Machine.Follows service .crashed refusing (fun _ => .untouched) s g l t g') :
    Touched i g' := by
  obtain ⟨o, hg⟩ := h
  cases hf with
  | start _ hn =>
    have other : i ≠ s.threads.length := by
      intro he
      rw [← he, hg] at hn
      cases hn
    exact ⟨o, by rw [Function.update_of_ne other, hg]⟩
  | @run k c o' op next sh r p hi hg' _ he =>
    by_cases hki : i = k
    · subst hki
      rw [hg] at hg'
      cases hg'
      have odd := sober i o _ (Function.update_self ..)
      have touched := Footprint.next_touched odd (.inr rfl)
      exact ⟨o, (Function.update_self ..).trans (congrArg (fun p => some (o, p)) touched)⟩
    · exact ⟨o, by rw [Function.update_of_ne hki, hg]⟩
  | env _ => exact ⟨o, hg⟩
  | kill _ _ => exact ⟨o, hg⟩

end

/-- A client error comes from a controller, or from a txId that was used. -/
theorem Request.refused_of_respond {r : Request} {message : Err → String} {url : String}
    {res : Except Err Reply} (h : (r.respond message url res).Refuses) : Refused res := by
  obtain ⟨low, high⟩ := h
  cases res with
  | error e =>
    cases e with
    | conflict m => rfl
    | unauthorized m => rfl
    | badRequest m => rfl
    | _ => exact absurd high (Nat.lt_irrefl 500)
  | ok reply =>
    cases r with
    | fundWallet b =>
      cases reply with
      | duplicate m d => trivial
      | _ => simp [respond, WalletsController.funded] at low
    | _ => simp [respond] at low

/-- A request that ends with a client error has changed no row in any of its steps
and published nothing but a login attempt, whatever runs and fails beside it. -/
theorem refused_requests_change_nothing {s t u v : State} {i : Nat} {c : Choice} {tok : Int}
    {r : Request} {res : Except Err Reply} (hs : s.threads = [])
    (h : Reach (fun _ _ => True) s t) (hst : step t (.run i c) = some u)
    (h' : Reach (fun _ _ => True) u v) (hv : v.threads[i]? = some ⟨.http tok r, .ret res⟩)
    (message : Err → String) (url : String) (refused : (r.respond message url res).Refuses) :
    u.shared.db = t.shared.db ∧
      ∀ m, u.shared.broker.Holds m → t.shared.broker.Holds m ∨ ∃ l, m.data = .login l := by
  have first : Sober fun _ => none := by
    intro _ _ _ hg
    cases hg
  obtain ⟨g, ht, sober⟩ := Machine.Tracks.invariant (I := fun _ => Sober)
    (service_refusing _) (.of_nil hs) first (fun _ _ _ _ _ _ _ hI hf => hI.follow hf) h
  obtain ⟨g', ht', hf⟩ := ht.step (C := fun _ _ => True) (service_refusing _) trivial hst
  have sober' := sober.follow hf
  cases hf with
  | @run _ _ o op next sh r' p' hj hg _ he =>
    by_cases effect : op.takesEffect = true
    · exfalso
      have odd := sober' i o _ (Function.update_self ..)
      have next := Footprint.next_touched odd (.inl effect)
      have touched : Touched i (Function.update g i (some (o, (refusing o).next p' op r'))) :=
        ⟨o, (Function.update_self ..).trans (congrArg (fun p => some (o, p)) next)⟩
      obtain ⟨g'', ht'', -, o', hg''⟩ := Machine.Tracks.invariant
        (I := fun _ g => Sober g ∧ Touched i g) (service_refusing _) ht' ⟨sober', touched⟩
        (fun _ _ _ _ _ _ _ hI hf => ⟨hI.1.follow hf, hI.2.follow (hI.1.follow hf) hf⟩) h'
      obtain ⟨p'', hg₁, ended | crashed⟩ := ht''.obeys i _ hv
      · rw [hg''] at hg₁
        cases hg₁
        exact ended tok r rfl (Request.refused_of_respond refused) rfl
      · cases crashed
        cases (Request.refused_of_respond refused : Refused (.error .crashed))
    · exact exec_effectless (by simpa using effect) he

/-- A request that has ended. -/
def ServiceThread.ended? : ServiceThread → Option (Int × Request × Except Err Reply)
  | ⟨.http tok r, .ret res⟩ => some (tok, r, res)
  | _ => none

theorem ServiceThread.ended?_eq_some {th : ServiceThread} {tok r res}
    (h : th.ended? = some (tok, r, res)) : th = ⟨.http tok r, .ret res⟩ := by
  unfold ended? at h
  split at h
  · cases h
    rfl
  · cases h

/-- A second wallet of a currency is refused by the last of three calls. -/
theorem refused_requests_change_nothing_twice : ∃ t u,
    runSteps (.start (.http 1 (.createWallet ⟨1, "USD", "w1"⟩)) :: calls 0 9 ++
      .start (.http 1 (.createWallet ⟨1, "USD", "w2"⟩)) :: calls 1 2) State.empty = some t ∧
    step t (.run 1 (.ok {})) = some u ∧ u.shared.db = t.shared.db ∧
      ∀ m, u.shared.broker.Holds m → t.shared.broker.Holds m ∨ ∃ l, m.data = .login l := by
  have h : ((runSteps (.start (.http 1 (.createWallet ⟨1, "USD", "w1"⟩)) :: calls 0 9 ++
      .start (.http 1 (.createWallet ⟨1, "USD", "w2"⟩)) :: calls 1 2) State.empty).bind fun t =>
        (step t (.run 1 (.ok {}))).map fun u => (u.threads[1]?.bind ServiceThread.ended?).any fun x =>
          (x.2.1.respond (fun _ => "") "/wallet/create" x.2.2).code == 409) = some true := by
    decide +kernel
  obtain ⟨t, u, ht, hu, ended⟩ := runSteps_step h
  obtain ⟨⟨tok, r, res⟩, hx, code⟩ := (Option.any_eq_true _ _).mp ended
  obtain ⟨th, hth, he⟩ := Option.bind_eq_some_iff.mp hx
  rw [ServiceThread.ended?_eq_some he] at hth
  have conflict := eq_of_beq code
  have refused : (r.respond (fun _ => "") "/wallet/create" res).Refuses := by
    rw [Response.Refuses, conflict]
    decide
  have reach : Reach (fun _ _ => True) State.empty t :=
    Machine.reach_of_runs (fun _ _ _ => trivial) ht
  exact ⟨t, u, ht, hu, refused_requests_change_nothing rfl reach hu .refl hth _ _ refused⟩

end Pactic
