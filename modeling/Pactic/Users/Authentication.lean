import Pactic.Model.Auth
import Pactic.Users.Logins
import Pactic.Wallets.Deposits
import Pactic.Wallets.Isolation

/-! # Who may ask for a job

Every job in the broker was asked for by a request with the token of the user who
pays, and a token is only to be had for the password of its account. -/
namespace Pactic
open Keyed Resumption

/-! ## Jobs are asked for -/

/-- A request with the payer's token has asked for the job. -/
def State.AskedFor (s : State) (j : Job) : Prop :=
  ∃ r, r.job? = some j ∧ ∃ th ∈ s.threads, th.origin = .http j.payer r

/-- The job was in the broker at the beginning, or was asked for since. -/
def JobSource (s t : State) (j : Job) : Prop :=
  (∃ m, s.shared.broker.Holds m ∧ m.data = .job j) ∨ t.AskedFor j

/-- Every job that waits or is being carried out has a source. -/
structure Sourced (s t : State) : Prop where
  held : ∀ m j, t.shared.broker.Holds m → m.data = .job j → JobSource s t j
  delivered : ∀ th ∈ t.threads, ∀ m j, th.origin = .delivery m → m.data = .job j → JobSource s t j

section
variable {C : State → Step → Prop} {s t u : State} {l : Step} {j : Job}

theorem JobSource.mono (h : JobSource s t j) (h' : Reach C t u) : JobSource s u j := by
  rcases h with first | ⟨r, hr, asked⟩
  · exact .inl first
  · exact .inr ⟨r, hr, h'.started asked⟩

theorem Sourced.first (hs : s.threads = []) : Sourced s s where
  held m j hm hd := .inl ⟨m, hm, hd⟩
  delivered th hth := by
    rw [hs] at hth
    cases hth

/-- What a thread publishes is the job of its request, or of its message. -/
theorem Sourced.publishes {i : Nat} {o : Origin} {p : Proc Reply} {q data x} (h : Sourced s t)
    (hi : t.threads[i]? = some ⟨o, p⟩) (kept : o.Confines (.rabbit (.sendToQueue q data x)))
    (hd : data = .job j) : JobSource s t j := by
  subst hd
  have thread := List.mem_of_getElem? hi
  rcases kept with ⟨-, -, mine⟩ | ⟨m, rfl, acked | ⟨q', x', sent⟩⟩
  · cases o with
    | http tok r =>
      obtain ⟨asked, rfl⟩ := mine
      exact .inr ⟨r, asked, _, thread, rfl⟩
    | delivery m =>
      have none : ¬ m.data.scope.jobs j := by cases m.data <;> exact id
      exact absurd mine none
  · cases acked
  · cases hm : m.data with
    | job j' =>
      rw [hm] at sent
      cases sent
      exact h.delivered _ thread m j rfl hm
    | _ =>
      rw [hm] at sent
      cases sent

theorem Sourced.step (h : Sourced s t) (confined : ∀ th ∈ t.threads, th.prog.Only th.origin.Confines)
    (hl : C t l) (hst : step t l = some u) : Sourced s u := by
  have later : Reach C t u := .tail .refl hl hst
  have keeps {sh : Shared} (hb : ∀ m, sh.broker.Holds m → t.shared.broker.Holds m) (m j)
      (hm : sh.broker.Holds m) (hd : m.data = .job j) : JobSource s u j :=
    (h.held m j (hb m hm) hd).mono later
  constructor
  · cases Machine.step_fires hst with
    | start ha => exact keeps (Origin.accept_holds ha)
    | env he => exact keeps (EnvStep.run_holds he)
    | kill _ => exact keeps fun _ hm => hm
    | @run i c o op next sh r hi he =>
      have kept := (confined _ (List.mem_of_getElem? hi)).1
      intro m j hm hd
      rcases exec_broker he with same | ⟨op', rfl, run⟩
      · exact keeps (fun m hm => same ▸ hm) m j hm hd
      · rcases RabbitOp.run_holds (run ▸ hm) with hm | ⟨q, data, x, rfl, rfl⟩
        · exact (h.held m j hm hd).mono later
        · exact (h.publishes hi kept hd).mono later
  · intro th hth m j ho hd
    rcases Machine.step_origin hst hth with ⟨th', hth', same⟩ | ⟨-, sh, ha⟩
    · exact (h.delivered th' hth' m j (same.trans ho) hd).mono later
    · rw [ho] at ha
      exact (h.held m j (.inl (Origin.accept_delivery ha).1) hd).mono later

theorem Reach.sourced (hs : s.threads = []) (h : Reach C s t) : Sourced s t := by
  induction h with
  | refl => exact .first hs
  | tail hr hl hst ih => exact ih.step (Reach.confined hs hr) hl hst

end

/-! ## Tokens are answered to passwords -/

section
variable (hashes accepts : String → String → Prop) (jwt : JwtService) (before : String → Prop)

/-- Runs with these answers of the libraries, behind the guard. -/
def AuthRun (s : State) (l : Step) : Prop :=
  BcryptRun hashes accepts s l ∧ Authenticated jwt before s l

/-- Somebody has logged in to this account: its hash was accepted for the password
given, and unless the hash is from the beginning the same password was given in
the signup. -/
def PasswordShown (s t : State) (id : Int) : Prop :=
  ∃ b, (∃ tok ip ua, ∃ th ∈ t.threads, th.origin = .http tok (.login b ip ua)) ∧
    ∃ v x, Reach (BcryptRun hashes accepts) s v ∧ Reach (BcryptRun hashes accepts) v t ∧
      x ∈ v.shared.db.users.rows ∧ x.id = id ∧ x.email = b.email ∧
      accepts b.password x.password ∧
      ((∃ x₀ ∈ s.shared.db.users.rows, x₀.email = b.email ∧ x₀.password = x.password) ∨
        ∃ tok' b', (∃ th ∈ v.threads, th.origin = .http tok' (.signup b')) ∧
          b'.email = b.email ∧ firstBytes b.password = firstBytes b'.password)

/-- A token of the user is from before, or somebody has logged in as the user. -/
def Entitled (s t : State) (id : Int) : Prop :=
  (∃ text user, before text ∧ JwtAuthGuard.canActivate jwt (some text) = some user ∧ user.id = id) ∨
    PasswordShown hashes accepts s t id

end

section
variable {hashes accepts : String → String → Prop} {jwt : JwtService} {before : String → Prop}
  {s t u : State} {id : Int}

theorem Entitled.mono (h : Entitled hashes accepts jwt before s t id)
    (h' : Reach (BcryptRun hashes accepts) t u) : Entitled hashes accepts jwt before s u id := by
  rcases h with old | ⟨b, ⟨tok, ip, ua, login⟩, v, x, hv, hvt, rest⟩
  · exact .inl old
  · exact .inr ⟨b, ⟨tok, ip, ua, h'.started login⟩, v, x, hv, hvt.trans h', rest⟩

/-- A text that a login was answered with is for the account of the login. -/
theorem State.Issued.password_shown {text : String} {user : AuthenticatedUser}
    (h : t.Issued jwt text) (faithful : jwt.Faithful)
    (accepted : JwtAuthGuard.canActivate jwt (some text) = some user) (hs : s.threads = [])
    (reach : Reach (BcryptRun hashes accepts) s t)
    (sound : ∀ y y' z, hashes y z → accepts y' z → firstBytes y' = firstBytes y) :
    PasswordShown hashes accepts s t user.id := by
  obtain ⟨tok, b, ip, ua, answer, payload, told, rfl⟩ := h
  obtain ⟨payload', verified, rfl⟩ := Option.map_eq_some_iff.mp accepted
  obtain rfl := faithful payload payload' verified
  obtain ⟨v, hv, hvt, x, hx, id, email, matched, chosen⟩ := Reach.login_answered hs reach told
  exact ⟨b, ⟨tok, ip, ua, _, told, rfl⟩, v, x, hv, hvt, hx, id, email, matched,
    chosen.password_of_accepts sound email matched⟩

theorem Reach.bcrypt (h : Reach (AuthRun hashes accepts jwt before) s t) :
    Reach (BcryptRun hashes accepts) s t := h.mono fun _ _ => And.left

/-- Every guarded request is for a user who is entitled to it. -/
theorem Reach.entitled (hs : s.threads = []) (h : Reach (AuthRun hashes accepts jwt before) s t)
    (faithful : jwt.Faithful)
    (sound : ∀ y y' z, hashes y z → accepts y' z → firstBytes y' = firstBytes y) :
    ∀ th ∈ t.threads, ∀ tok r, th.origin = .http tok r → r.guarded = true →
      Entitled hashes accepts jwt before s t tok := by
  induction h with
  | refl =>
    intro th hth
    rw [hs] at hth
    cases hth
  | tail hr hl hst ih =>
    have later := Machine.Reach.tail .refl hl.1 hst
    intro th hth tok r ho guarded
    rcases Machine.step_origin hst hth with ⟨th', hth', same⟩ | ⟨start, -⟩
    · exact (ih th' hth' tok r (same.trans ho) guarded).mono later
    · rw [ho] at start
      obtain ⟨text, user, accepted, rfl, issued⟩ := hl.2 tok r start guarded
      refine Entitled.mono ?_ later
      rcases issued with old | issued
      · exact .inl ⟨text, user, old, accepted, rfl⟩
      · exact .inr (issued.password_shown faithful accepted hs (Reach.bcrypt hr) sound)

/-- Behind the guard nobody moves the money of a user without the password: every
guarded request and every job in the broker is for a user with a token from
before, or whose account somebody has logged in to, unless the job was in the
broker at the beginning. -/
theorem jobs_need_the_password (hs : s.threads = [])
    (h : Reach (AuthRun hashes accepts jwt before) s t) (faithful : jwt.Faithful)
    (sound : ∀ y y' z, hashes y z → accepts y' z → firstBytes y' = firstBytes y) :
    (∀ th ∈ t.threads, ∀ tok r, th.origin = .http tok r → r.guarded = true →
      Entitled hashes accepts jwt before s t tok) ∧
    ∀ m j, t.shared.broker.Holds m → m.data = .job j →
      (∃ m₀, s.shared.broker.Holds m₀ ∧ m₀.data = .job j) ∨
      (∃ r, r.job? = some j ∧ ∃ th ∈ t.threads, th.origin = .http j.payer r) ∧
        Entitled hashes accepts jwt before s t j.payer := by
  have entitled := Reach.entitled hs h faithful sound
  refine ⟨entitled, fun m j hm hd => ?_⟩
  rcases (Reach.sourced hs h).held m j hm hd with first | ⟨r, hr, th, hth, ho⟩
  · exact .inl first
  · have guarded : r.guarded = true := by
      cases r with
      | signup b => cases hr
      | login b ip ua => cases hr
      | _ => rfl
    exact .inr ⟨⟨r, hr, th, hth, ho⟩, entitled th hth j.payer r ho guarded⟩

end

/-! ## Bob asks for a deposit -/

/-- A library that has signed the token of one login. -/
def bobsJwt : JwtService where
  sign payload := if payload = ⟨1, "bob@a"⟩ then "bob's token" else ""
  verify text := if text = "bob's token" then some ⟨1, "bob@a"⟩ else none

theorem bobsJwt_faithful : bobsJwt.Faithful := by
  intro payload payload' h
  by_cases bob : payload = ⟨1, "bob@a"⟩
  · simp only [bobsJwt, if_pos bob, if_true, Option.some.injEq] at h
    exact h.symm.trans bob.symm
  · simp [bobsJwt, bob] at h

/-- A guarded request is Bob's, who has been answered his token. -/
def bobsGuard (s : State) : Step → Bool
  | .start (.http tok r) => !r.guarded || (tok = 1 && s.threads.any fun th =>
      (ServiceThread.login? th).any fun x => x.2.2.2.2.2 = ⟨1, "bob@a"⟩)
  | _ => true

theorem authenticated_of_bobsGuard {s : State} {l : Step} (h : bobsGuard s l = true) :
    Authenticated bobsJwt (fun _ => False) s l := by
  intro tok r hl guarded
  subst hl
  simp only [bobsGuard, guarded, Bool.not_true, Bool.false_or] at h
  obtain ⟨one, logged⟩ := (Bool.and_eq_true _ _).mp h
  obtain ⟨th, hth, hx⟩ := List.any_eq_true.mp logged
  obtain ⟨⟨tok', b, ip, ua, user, token⟩, login, signed⟩ := (Option.any_eq_true _ _).mp hx
  obtain rfl : token = ⟨1, "bob@a"⟩ := of_decide_eq_true signed
  rw [ServiceThread.login?_eq_some login] at hth
  exact ⟨"bob's token", ⟨1, "bob@a"⟩, rfl, (of_decide_eq_true one).symm,
    .inr ⟨tok', b, ip, ua, user, _, hth, rfl⟩⟩

/-- Bob signs up, logs in and asks for a deposit. -/
def bobDeposits : List Step :=
  bobRecorded ++ .start (.http 1 (.fundWallet deposit₁)) :: calls 3 4

theorem jobs_need_the_password_bob : ∃ (t : State) (m : Message),
    t.shared.broker.Holds m ∧ m.data = .job (.funding deposit₁) ∧
    ((∃ m₀, State.empty.shared.broker.Holds m₀ ∧ m₀.data = .job (.funding deposit₁)) ∨
      (∃ r, r.job? = some (.funding deposit₁) ∧ ∃ th ∈ t.threads, th.origin = .http 1 r) ∧
        Entitled (fun x z => z = crypt x) (fun x z => z = crypt x) bobsJwt (fun _ => False)
          State.empty t 1) := by
  have h : (service.runsIf .crashed (fun s l => cryptAnswers s l && bobsGuard s l) bobDeposits
      State.empty).any (fun t => t.shared.broker.ready.any fun m =>
        m.data = .job (.funding deposit₁)) = true := by decide +kernel
  obtain ⟨t, ht, waits⟩ := (Option.any_eq_true _ _).mp h
  obtain ⟨m, hm, hd⟩ := List.any_eq_true.mp waits
  have reach : Reach (AuthRun (fun x z => z = crypt x) (fun x z => z = crypt x) bobsJwt
      fun _ => False) State.empty t := by
    refine Machine.reach_of_runsIf (fun s l hl => ?_) ht
    obtain ⟨answers, guard⟩ := (Bool.and_eq_true _ _).mp hl
    exact ⟨bcryptRun_of_cryptAnswers answers, authenticated_of_bobsGuard guard⟩
  have sound (y y' z : String) (hy : z = crypt y) (hy' : z = crypt y') : firstBytes y' = firstBytes y := by
    rw [hy, crypt, crypt, String.append_right_inj] at hy'
    rw [hy']
  have hd := of_decide_eq_true hd
  exact ⟨t, m, .inl hm, hd,
    (jobs_need_the_password rfl reach bobsJwt_faithful sound).2 m _ (.inl hm) hd⟩

end Pactic
