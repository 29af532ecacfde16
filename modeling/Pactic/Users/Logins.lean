import Pactic.Rabbit.Payloads
import Pactic.Users.Accounts

/-! # What a token and a login log prove

A login is answered with a token after the library has accepted the password for
the hash of the account, and every hash there was made by the library for a
signup. What it announces goes through the broker into the table of login logs,
so every row there tells of a login that somebody has tried. -/
namespace Pactic
open Keyed Resumption

/-! ## What a thread may claim -/

/-- What a thread was answered: accounts looked up by email, hashes of passwords,
and comparisons of a password with a hash. -/
structure Evidence where
  found : List (String × Option User)
  hashed : List (String × String)
  compared : List (String × String × Bool)

def Evidence.nothing : Evidence := ⟨[], [], []⟩

/-- The attempt a login announces is what it was answered. -/
def Evidence.Supports (p : Evidence) (b : LoginUserDto) (ip ua : String) (l : LoginAttempt) : Prop :=
  ∃ user isMatch, (b.email, user) ∈ p.found ∧
    l = ⟨user.map User.id, b.email, ip, ua, none, user.isSome && isMatch⟩ ∧
    ∀ u, user = some u → (b.password, u.password, isMatch) ∈ p.compared

/-- The row the login processor stores. -/
def LoginAttempt.row (l : LoginAttempt) : LoginLog :=
  ⟨l.userId, l.ipAddress, l.userAgent, l.location.getD ""⟩

/-- Passwords are stored as hashed for the signup, attempts are announced as they
were, and passed on and recorded as they came. -/
def Origin.Vouches (o : Origin) (p : Evidence) : Op → Prop
  | .prisma (.userUpsert e _ x) =>
    ∃ tok b, o = .http tok (.signup b) ∧ e = b.email ∧ (b.password, x) ∈ p.hashed
  | .prisma (.userUpdate _ d) => ∃ now, d = some { deletedAt := some (some now) }
  | .prisma (.loginLogCreate row) => ∃ m l, o = .delivery m ∧ m.data = .login l ∧ row = l.row
  | .rabbit (.sendToQueue _ (.login l) _) => (∃ m, o = .delivery m ∧ m.data = .login l) ∨
      ∃ tok b ip ua, o = .http tok (.login b ip ua) ∧ p.Supports b ip ua l
  | _ => True

def Evidence.next (p : Evidence) : (op : Op) → Except Err op.Res → Evidence
  | .prisma (.userFindByEmail e), .ok u => { p with found := (e, u) :: p.found }
  | .library (.hash x), .ok h => { p with hashed := (x, h) :: p.hashed }
  | .library (.compare x h), .ok same => { p with compared := (x, h, same) :: p.compared }
  | _, _ => p

def vouching (o : Origin) : Monitor Op Op.Res Err Evidence := ⟨o.Vouches, Evidence.next⟩

/-- A token names the account that was found, whose hash the password matched. -/
def Backed (o : Origin) (r : Except Err Reply) (p : Evidence) : Prop :=
  ∀ tok b ip ua user token, o = .http tok (.login b ip ua) → r = .ok (.login user token) →
    ∃ u, (b.email, some u) ∈ p.found ∧ (b.password, u.password, true) ∈ p.compared ∧
      token = ⟨u.id, u.email⟩

section
variable {α : Type} {o : Origin} {p : Evidence} {m : Message}

theorem vouches_mute {op : Op} {a : Scope} (ha : ¬ a.logins) (spares : op.sparesUsers = true)
    (within : op.KeepsTo a) : o.Vouches p op := by
  cases op with
  | prisma op =>
    cases op with
    | userUpsert e n x => cases spares
    | userUpdate id d => cases spares
    | loginLogCreate row => exact absurd within ha
    | _ => trivial
  | rabbit op =>
    cases op with
    | sendToQueue q data x =>
      cases data with
      | login l => exact absurd within.2.2 ha
      | _ => trivial
    | _ => trivial
  | _ => trivial

/-- Where neither accounts nor attempts are touched, nothing is claimed. -/
theorem Spares.vouching {c : Proc α} {a : Scope} (spares : Spares c) (within : Scoped a c)
    (ha : ¬ a.logins) : (Pactic.vouching o).Maintains (fun _ => True) c :=
  .of_only (fun _ _ _ hop => ⟨vouches_mute ha hop.1 hop.2, fun _ => trivial⟩) (spares.and within)

/-- A failed delivery is published again as it came. -/
theorem vouches_again {q : Queue} {x : Option Nat} :
    (Origin.delivery m).Vouches p (.rabbit (.sendToQueue q m.data x)) := by
  cases hd : m.data with
  | login l => exact .inl ⟨m, rfl, hd⟩
  | _ => trivial

theorem consume_vouching {q : Queue} {handler : Proc Unit}
    (hh : (vouching (.delivery m)).Maintains (fun _ => True) handler) :
    (vouching (.delivery m)).Maintains (fun _ => True) (consume q handler m) := by
  have again (q : Queue) : (vouching (.delivery m)).Maintains (fun _ => True) (do
      sendToQueue q m.data (some (m.attempts + 1))
      call (.rabbit (.ack m))) := by
    refine .bind (.tryCatch (.bind ?_ fun _ => ?_) fun _ => .ret _) fun _ => ?_
    · exact fun _ _ => ⟨trivial, fun _ => trivial⟩
    · exact fun _ _ => ⟨vouches_again, fun _ => trivial⟩
    · exact fun _ _ => ⟨trivial, fun _ => trivial⟩
  refine .tryCatch hh fun _ => ?_
  split
  · exact again _
  · exact again _

theorem deliver_login {l : LoginAttempt} {c : Proc Unit} (hd : m.data = .login l)
    (h : deliver m = some c) : c = consume .loginLogs (loginHandler l) m := by
  cases hq : m.queue <;> simp [deliver, hq, hd] at h
  exact h.symm

theorem deliver_vouching {c : Proc Unit} (h : deliver m = some c) (spares : Spares c) :
    (vouching (.delivery m)).Maintains (fun _ => True) c := by
  cases hd : m.data with
  | login l =>
    rw [deliver_login hd h]
    exact consume_vouching fun _ _ => ⟨⟨m, l, rfl, hd, rfl⟩, fun _ => trivial⟩
  | _ =>
    obtain ⟨handler, rfl, within⟩ := deliver_scoped h
    rw [hd] at within
    exact consume_vouching (Spares.vouching spares.of_tryCatch within id)

/-- Announcing what the thread was answered is in order. -/
theorem announce_vouching {tok : Int} {b : LoginUserDto} {ip ua : String} {l : LoginAttempt}
    {c : Proc α} {Q : Except Err α → Evidence → Prop} (hl : p.Supports b ip ua l)
    (hc : (vouching (.http tok (.login b ip ua))).wp c Q p) (he : ∀ e, Q (.error e) p) :
    (vouching (.http tok (.login b ip ua))).wp (do sendToQueue .loginLogs (.login l) none; c) Q p := by
  have sent : (vouching (.http tok (.login b ip ua))).wp (sendToQueue .loginLogs (.login l) none)
      (fun r q => r = .ok () ∧ q = p) p := by
    refine (Monitor.wp_tryCatch _ _ _ _ _).mpr ((Monitor.wp_perform_bind _ _ _ _ _).mpr
      ⟨trivial, fun _ => ⟨.inr ⟨tok, b, ip, ua, rfl, hl⟩, fun r => ?_⟩, fun _ => ⟨rfl, rfl⟩⟩)
    cases r with
    | ok _ => exact ⟨rfl, rfl⟩
    | error _ => exact ⟨rfl, rfl⟩
  refine (Monitor.wp_bind _ _ _ _ _).mpr (Monitor.wp_mono _ sent fun r q hq => ?_)
  obtain ⟨rfl, rfl⟩ := hq
  exact hc

theorem login_vouching (tok : Int) (b : LoginUserDto) (ip ua : String) :
    (vouching (.http tok (.login b ip ua))).wp (UsersController.login b ip ua)
      (Backed (.http tok (.login b ip ua))) .nothing := by
  have failed (e : Err) (q : Evidence) : Backed (.http tok (.login b ip ua)) (.error e) q := by
    intro _ _ _ _ _ _ _ hr
    cases hr
  refine (Monitor.wp_bind _ _ _ _ _).mpr ((Monitor.wp_perform_bind _ _ _ _ _).mpr
    ⟨trivial, fun found => ?_, fun e => failed e _⟩)
  cases found with
  | none =>
    refine announce_vouching ⟨none, false, .head _, rfl, fun u hu => by cases hu⟩ ?_ fun e => failed e _
    exact failed _ _
  | some u =>
    refine (Monitor.wp_perform_bind _ _ _ _ _).mpr ⟨trivial, fun isMatch => ?_, fun e => failed e _⟩
    refine announce_vouching ⟨some u, isMatch, .head _, rfl, fun v hv => ?_⟩ ?_ fun e => failed e _
    · cases hv
      exact .head _
    cases isMatch with
    | false => exact failed _ _
    | true =>
      simp only [Bool.not_true, Bool.false_eq_true, if_false]
      split
      · exact failed _ _
      · intro _ _ _ _ _ _ ho hr
        cases ho
        cases hr
        exact ⟨u, .head _, .head _, rfl⟩

theorem signup_vouching (tok : Int) (b : CreateUserDto) :
    (vouching (.http tok (.signup b))).wp (UsersController.signup b) (fun _ _ => True) p := by
  refine (Monitor.wp_bind _ _ _ _ _).mpr (Monitor.wp_mono _ (Q := fun _ _ => True) ?_ fun r q _ => ?_)
  · refine (Monitor.wp_perform_bind _ _ _ _ _).mpr ⟨trivial, fun found => ?_, fun _ => trivial⟩
    split
    · trivial
    · refine (Monitor.wp_perform_bind _ _ _ _ _).mpr ⟨trivial, fun h => ?_, fun _ => trivial⟩
      refine (Monitor.wp_perform_bind _ _ _ _ _).mpr ⟨⟨tok, b, rfl, rfl, .head _⟩, fun _ => trivial,
        fun _ => trivial⟩
  · cases r with
    | ok _ => trivial
    | error _ => trivial

theorem deleteUser_vouching (tok u : Int) :
    (vouching o).wp (UsersController.deleteUser u tok) (fun _ _ => True) p := by
  have checked : (vouching o).Maintains (fun _ => True) (validateTokenUser u tok) := by
    unfold validateTokenUser
    split
    · exact .ret _
    · exact .ret _
  have deleted : (vouching o).Maintains (fun _ => True) (UsersService.deleteUser u) := by
    refine .bind (fun _ _ => ⟨trivial, fun _ => trivial⟩) fun found => ?_
    cases found with
    | none => exact .ret _
    | some user =>
      dsimp only
      split
      · exact .ret _
      · exact .bind (fun _ _ => ⟨trivial, fun _ => trivial⟩) fun now =>
          .bind (fun _ _ => ⟨⟨now, rfl⟩, fun _ => trivial⟩) fun _ =>
          .bind (fun _ _ => ⟨trivial, fun _ => trivial⟩) fun _ => .ret _
  exact (checked.bind fun _ => deleted) p trivial

theorem service_vouching {C : State → Step → Prop} (hC : ∀ s l, C s l → NoProfileUpdate s l) :
    Machine.Obeys service vouching Backed (fun _ => .nothing) C := by
  intro s o sh hc ha
  have plain {r : Request} {tok : Int} (hn : r.isLogin = false)
      (h : (vouching (.http tok r)).wp (r.program tok) (fun _ _ => True) .nothing) :
      (vouching (.http tok r)).wp (r.program tok) (Backed (.http tok r)) .nothing := by
    refine Monitor.wp_mono _ h fun x q _ => ?_
    intro tok b ip ua user token ho
    cases ho
    cases hn
  cases o with
  | delivery m =>
    obtain ⟨c, hc, program⟩ := Origin.program_delivery (Origin.accept_delivery ha).2.1
    have spares : Spares (Origin.program (.delivery m)) := Monitor.only_of_wp (protocol (.delivery m))
      (fun _ _ => sparesUsers_of_protocol) (Origin.program_keeps (Origin.accept_delivery ha).2.1)
    rw [program] at spares
    show (vouching _).wp (Origin.delivery m).program _ _
    rw [program]
    have all := (deliver_vouching hc spares.of_bind).bind (f := fun _ => pure Reply.done) fun _ => .ret _
    refine Monitor.wp_mono _ (all .nothing trivial) fun _ _ _ => ?_
    intro _ _ _ _ _ _ ho
    cases ho
  | http tok r =>
    have quiet (hr : r.isLogin = false) (spares : Spares (r.program tok)) :
        (vouching (.http tok r)).wp (r.program tok) (fun _ _ => True) .nothing := by
      have silent : ¬ (r.scope tok).logins := fun login => by
        rw [Request.scope, hr] at login
        cases login
      exact Spares.vouching spares (Request.program_scoped tok r) silent .nothing trivial
    have wallets (hw : r.ofWallets = true) : Spares (r.program tok) :=
      Monitor.only_of_wp (protocol (.http tok r)) (fun _ _ => sparesUsers_of_protocol)
        (Origin.program_keeps (o := .http tok r) hw)
    cases r with
    | signup b => exact plain rfl (signup_vouching tok b)
    | deleteUser u => exact plain rfl (deleteUser_vouching tok u)
    | updateProfile body client => exact absurd rfl (hC _ _ hc tok body client)
    | getProfile u => exact plain rfl (quiet rfl (getProfile_spares u tok))
    | login b ip ua => exact login_vouching tok b ip ua
    | _ => exact plain rfl (quiet rfl (wallets rfl))

end
/-! ## What a run vouches for -/

/-- What the answers of the bcrypt library mean: a text it returns as the hash of
a password, and a password it accepts for a hash. -/
def BcryptAnswers (hashes accepts : String → String → Prop) (s : State) (l : Step) : Prop :=
  (∀ i a o x k, l = .run i (.ok a) → s.threads[i]? = some ⟨o, .call (.library (.hash x)) k⟩ →
    hashes x a.text) ∧
  ∀ i a o x h k, l = .run i (.ok a) → s.threads[i]? = some ⟨o, .call (.library (.compare x h)) k⟩ →
    a.flag = true → accepts x h

/-- Runs without profile updates, with these answers. -/
def BcryptRun (hashes accepts : String → String → Prop) (s : State) (l : Step) : Prop :=
  NoProfileUpdate s l ∧ BcryptAnswers hashes accepts s l

/-- A login attempt is in the broker. -/
def Broker.Carries (b : Broker) (l : LoginAttempt) : Prop := ∃ m, b.Holds m ∧ m.data = .login l

section
variable (hashes accepts : String → String → Prop)

/-- At some state on the way the query for this email found this. -/
def LookedUp (s t : State) (email : String) (user : Option User) : Prop :=
  ∃ v, Reach (BcryptRun hashes accepts) s v ∧ Reach (BcryptRun hashes accepts) v t ∧
    (v.shared.db.users.rows.find? fun u => u.email = email) = user

/-- Somebody has tried to log in like this. -/
def AttemptMade (s t : State) (l : LoginAttempt) : Prop :=
  ∃ tok b user, (∃ th ∈ t.threads, th.origin = .http tok (.login b l.ipAddress l.userAgent)) ∧
    LookedUp hashes accepts s t b.email user ∧ l.userId = user.map User.id ∧ l.email = b.email ∧
    l.location = none ∧ (l.success = true → ∃ u, user = some u ∧ accepts b.password u.password)

/-- The hash of this account is from the beginning, or from a signup. -/
def Chosen (s t : State) (u : User) : Prop :=
  (∃ u₀ ∈ s.shared.db.users.rows, u₀.email = u.email ∧ u₀.password = u.password) ∨
  ∃ tok b, (∃ th ∈ t.threads, th.origin = .http tok (.signup b)) ∧ b.email = u.email ∧
    hashes b.password u.password

/-- The attempt was made, unless it was in the broker at the beginning. -/
def Attested (s t : State) (l : LoginAttempt) : Prop :=
  s.shared.broker.Carries l ∨ AttemptMade hashes accepts s t l

/-- What the threads claim is so, and what is stored and announced, too. -/
structure Vouched (s t : State) (g : Machine.Ghost Origin Evidence) : Prop where
  reached : Reach (BcryptRun hashes accepts) s t
  found : ∀ {i o p e u}, g i = some (o, p) → (e, u) ∈ p.found → LookedUp hashes accepts s t e u
  hashed : ∀ {i o p x h}, g i = some (o, p) → (x, h) ∈ p.hashed → hashes x h
  compared : ∀ {i o p x h}, g i = some (o, p) → (x, h, true) ∈ p.compared → accepts x h
  chosen : ∀ u ∈ t.shared.db.users.rows, Chosen hashes s t u
  carried : ∀ {l}, t.shared.broker.Carries l → Attested hashes accepts s t l
  delivered : ∀ {i m p l}, g i = some (.delivery m, p) → m.data = .login l →
    Attested hashes accepts s t l
  logged : ∀ row ∈ t.shared.db.loginLogs, row ∈ s.shared.db.loginLogs ∨
    ∃ l, row = l.row ∧ Attested hashes accepts s t l

end

section
variable {hashes accepts : String → String → Prop} {s t u : State} {l : LoginAttempt} {x : User}
  {g : Machine.Ghost Origin Evidence} {sh : Shared} {i : Nat} {o : Origin} {p : Evidence}
  {c : Choice} {op : Op} {r : Except Err op.Res}

theorem LookedUp.mono {e : String} {user : Option User} (h : LookedUp hashes accepts s t e user)
    (h' : Reach (BcryptRun hashes accepts) t u) : LookedUp hashes accepts s u e user := by
  obtain ⟨v, hv, hvt, found⟩ := h
  exact ⟨v, hv, hvt.trans h', found⟩

theorem AttemptMade.mono (h : AttemptMade hashes accepts s t l) (h' : Reach (BcryptRun hashes accepts) t u) :
    AttemptMade hashes accepts s u l := by
  obtain ⟨tok, b, user, started, found, rest⟩ := h
  exact ⟨tok, b, user, h'.started started, found.mono h', rest⟩

theorem Attested.mono (h : Attested hashes accepts s t l)
    (h' : Reach (BcryptRun hashes accepts) t u) : Attested hashes accepts s u l :=
  h.imp_right fun tried => tried.mono h'

theorem Chosen.mono (h : Chosen hashes s t x) (h' : Reach (BcryptRun hashes accepts) t u) :
    Chosen hashes s u x := by
  rcases h with first | ⟨tok, b, started, rest⟩
  · exact .inl first
  · exact .inr ⟨tok, b, h'.started started, rest⟩

/-- Another row with the same email and hash was chosen by the same signup. -/
theorem Chosen.of_same {y : User} (h : Chosen hashes s t x) (email : y.email = x.email)
    (password : y.password = x.password) : Chosen hashes s t y := by
  rw [Chosen, email, password]
  exact h

/-! ### The evidence of one call -/

theorem Vouched.next_found (h : Vouched hashes accepts s t g) (hg : g i = some (o, p))
    (he : exec c i o op t.shared = some (sh, r)) (h' : Reach (BcryptRun hashes accepts) t u)
    {e : String} {user : Option User} (hx : (e, user) ∈ (p.next op r).found) :
    LookedUp hashes accepts s u e user := by
  unfold Evidence.next at hx
  split at hx
  · next e' user' =>
    rcases List.mem_cons.mp hx with new | hx
    · cases new
      rcases exec_answer he with ⟨a, -, hrun⟩ | failed
      · simp only [Op.run, PrismaOp.run, Option.some.injEq, Prod.mk.injEq, Except.ok.injEq] at hrun
        exact ⟨t, h.reached, h', hrun.2⟩
      · cases failed
    · exact (h.found hg hx).mono h'
  · exact (h.found hg hx).mono h'
  · exact (h.found hg hx).mono h'
  · exact (h.found hg hx).mono h'

theorem Vouched.next_hashed {k} (h : Vouched hashes accepts s t g) (hg : g i = some (o, p))
    (hc : BcryptRun hashes accepts t (.run i c)) (hi : t.threads[i]? = some ⟨o, .call op k⟩)
    (he : exec c i o op t.shared = some (sh, r)) {y z : String} (hx : (y, z) ∈ (p.next op r).hashed) :
    hashes y z := by
  unfold Evidence.next at hx
  split at hx
  · exact h.hashed hg hx
  · next y' z' =>
    rcases List.mem_cons.mp hx with new | hx
    · cases new
      rcases exec_answer he with ⟨a, rfl, hrun⟩ | failed
      · cases hrun
        exact hc.2.1 i a o y k rfl hi
      · cases failed
    · exact h.hashed hg hx
  · exact h.hashed hg hx
  · exact h.hashed hg hx

theorem Vouched.next_compared {k} (h : Vouched hashes accepts s t g) (hg : g i = some (o, p))
    (hc : BcryptRun hashes accepts t (.run i c)) (hi : t.threads[i]? = some ⟨o, .call op k⟩)
    (he : exec c i o op t.shared = some (sh, r)) {y z : String}
    (hx : (y, z, true) ∈ (p.next op r).compared) : accepts y z := by
  unfold Evidence.next at hx
  split at hx
  · exact h.compared hg hx
  · exact h.compared hg hx
  · next y' z' same =>
    rcases List.mem_cons.mp hx with new | hx
    · cases new
      rcases exec_answer he with ⟨a, rfl, hrun⟩ | failed
      · simp only [Op.run, LibraryOp.run, Option.some.injEq, Prod.mk.injEq, Except.ok.injEq] at hrun
        exact hc.2.2 i a o y z k rfl hi hrun.2
      · cases failed
    · exact h.compared hg hx
  · exact h.compared hg hx

/-! ### The effect of one call -/

/-- A signup stores its own hash, and a deletion none. -/
theorem Vouched.exec_chosen {k} (h : Vouched hashes accepts s t g) (hg : g i = some (o, p))
    (hi : t.threads[i]? = some ⟨o, .call op k⟩) (allowed : o.Vouches p op)
    (he : exec c i o op t.shared = some (sh, r)) (hx : x ∈ sh.db.users.rows) :
    Chosen hashes s t x := by
  have thread := List.mem_of_getElem? hi
  by_cases hop : op.sparesUsers = true
  · exact h.chosen x (exec_spares hop he ▸ hx)
  cases op with
  | prisma op =>
    cases op with
    | userFindFirst e n => exact h.chosen x ((exec_check he).1 ▸ hx)
    | userUpsert e n z =>
      obtain ⟨tok, b, rfl, rfl, hashed⟩ := allowed
      have own {y : User} (email : y.email = b.email) (password : y.password = z) :
          Chosen hashes s t y :=
        .inr ⟨tok, b, ⟨_, thread, rfl⟩, email.symm, password ▸ h.hashed hg hashed⟩
      rcases exec_upsert_sets he with same | ⟨v, -, email, put⟩ | ⟨v, email, password, -, ins⟩
      · exact h.chosen x (same ▸ hx)
      · rw [put] at hx
        rcases Table.mem_put.mp hx with ⟨old, -⟩ | ⟨rfl, -⟩
        · exact h.chosen x old
        · exact own email rfl
      · rw [(Table.insert?_eq_some.mp ins).2] at hx
        rcases List.mem_append.mp hx with old | new
        · exact h.chosen x old
        · cases List.mem_singleton.mp new
          exact own email password
    | userUpdate id d =>
      obtain ⟨now, rfl⟩ := allowed
      have columns : ∀ d, some ({ deletedAt := some (some now) } : UserUpdate) = some d →
          d.id = none ∧ d.nested = some := by
        intro d hd
        cases hd
        exact ⟨rfl, rfl⟩
      rcases exec_userUpdate columns he with same | ⟨d, v, hd, -, hv, -, put⟩
      · exact h.chosen x (same ▸ hx)
      · cases hd
        rw [put] at hx
        rcases Table.mem_put.mp hx with ⟨old, -⟩ | ⟨rfl, -⟩
        · exact h.chosen x old
        · exact (h.chosen v (Table.find?_eq_some.mp hv).1).of_same rfl rfl
    | _ => exact absurd rfl hop
  | _ => exact absurd rfl hop

/-- What a login announces has been tried, and a delivery passes on what it has. -/
theorem Vouched.exec_carried {k} (h : Vouched hashes accepts s t g) (hg : g i = some (o, p))
    (hi : t.threads[i]? = some ⟨o, .call op k⟩) (allowed : o.Vouches p op)
    (he : exec c i o op t.shared = some (sh, r)) (hl : sh.broker.Carries l) :
    Attested hashes accepts s t l := by
  obtain ⟨m, held, hm⟩ := hl
  rcases exec_broker he with same | ⟨op', rfl, hb⟩
  · exact h.carried ⟨m, same ▸ held, hm⟩
  rw [hb] at held
  rcases RabbitOp.run_holds held with old | ⟨q, data, n, rfl, rfl⟩
  · exact h.carried ⟨m, old, hm⟩
  obtain rfl : data = .login l := hm
  rcases allowed with ⟨m, rfl, hd⟩ | ⟨tok, b, ip, ua, rfl, user, isMatch, found, rfl, compared⟩
  · exact h.delivered hg hd
  · refine .inr ⟨tok, b, user, ⟨_, List.mem_of_getElem? hi, rfl⟩, h.found hg found, rfl, rfl, rfl, ?_⟩
    intro success
    cases user with
    | none => cases success
    | some v =>
      have matched : isMatch = true := by simpa using success
      exact ⟨v, rfl, h.compared hg (matched ▸ compared v rfl)⟩

theorem Vouched.exec_logged (h : Vouched hashes accepts s t g) (hg : g i = some (o, p))
    (allowed : o.Vouches p op) (he : exec c i o op t.shared = some (sh, r)) {row : LoginLog}
    (hrow : row ∈ sh.db.loginLogs) : row ∈ s.shared.db.loginLogs ∨
      ∃ l, row = l.row ∧ Attested hashes accepts s t l := by
  have columns : ∀ id d, op = .prisma (.userUpdate id (some d)) → d.id = none ∧ d.nested = some := by
    intro id d hop
    subst hop
    obtain ⟨now, hd⟩ := allowed
    cases hd
    exact ⟨rfl, rfl⟩
  rcases (exec_entries_of_columns columns he).2.2 with same | ⟨new, rfl, added⟩
  · exact h.logged row (same ▸ hrow)
  · rw [added] at hrow
    rcases List.mem_append.mp hrow with old | hnew
    · exact h.logged row old
    · cases List.mem_singleton.mp hnew
      obtain ⟨m, l, rfl, hd, rfl⟩ := allowed
      exact .inr ⟨l, rfl, h.delivered hg hd⟩

/-! ### Every step -/

/-- A step that neither stores nor announces anything; a new thread claims nothing. -/
theorem Vouched.still {g' : Machine.Ghost Origin Evidence} {lab : Step}
    (h : Vouched hashes accepts s t g) (hc : BcryptRun hashes accepts t lab)
    (hst : step t lab = some u)
    (hg : ∀ {k o p}, g' k = some (o, p) → g k = some (o, p) ∨ p = .nothing ∧
      ∀ m l, o = .delivery m → m.data = .login l → t.shared.broker.Carries l)
    (users : u.shared.db.users = t.shared.db.users)
    (carried : ∀ m, u.shared.broker.Holds m → t.shared.broker.Holds m)
    (logs : u.shared.db.loginLogs = t.shared.db.loginLogs) : Vouched hashes accepts s u g' := by
  have later : Reach (BcryptRun hashes accepts) t u := .tail .refl hc hst
  constructor
  · exact h.reached.tail hc hst
  · intro k o p e x hk hx
    rcases hg hk with old | ⟨rfl, -⟩
    · exact (h.found old hx).mono later
    · cases hx
  · intro k o p y z hk hx
    rcases hg hk with old | ⟨rfl, -⟩
    · exact h.hashed old hx
    · cases hx
  · intro k o p y z hk hx
    rcases hg hk with old | ⟨rfl, -⟩
    · exact h.compared old hx
    · cases hx
  · exact fun x hx => (h.chosen x (users ▸ hx)).mono later
  · intro l hl
    obtain ⟨m, held, hm⟩ := hl
    exact (h.carried ⟨m, carried m held, hm⟩).mono later
  · intro k m p l hk hm
    rcases hg hk with old | ⟨-, held⟩
    · exact (h.delivered old hm).mono later
    · exact (h.carried (held m l rfl hm)).mono later
  · intro row hrow
    rcases h.logged row (logs ▸ hrow) with old | ⟨l, hl, attested⟩
    · exact .inl old
    · exact .inr ⟨l, hl, attested.mono later⟩

theorem Vouched.call {k} (h : Vouched hashes accepts s t g) (hg : g i = some (o, p))
    (hc : BcryptRun hashes accepts t (.run i c)) (hi : t.threads[i]? = some ⟨o, .call op k⟩)
    (allowed : o.Vouches p op) (he : exec c i o op t.shared = some (sh, r)) :
    Vouched hashes accepts s ⟨sh, t.threads.set i ⟨o, k r⟩⟩
      (Function.update g i (some (o, p.next op r))) := by
  have next : step t (.run i c) = some ⟨sh, t.threads.set i ⟨o, k r⟩⟩ :=
    (Machine.step_run hi).mpr ⟨sh, r, he, rfl⟩
  have later : Reach (BcryptRun hashes accepts) t ⟨sh, t.threads.set i ⟨o, k r⟩⟩ :=
    .tail .refl hc next
  have own {j o' p'} (hj : Function.update g i (some (o, p.next op r)) j = some (o', p')) :
      o' = o ∧ p' = p.next op r ∨ g j = some (o', p') := by
    by_cases hji : j = i
    · subst hji
      rw [Function.update_self] at hj
      cases hj
      exact .inl ⟨rfl, rfl⟩
    · rw [Function.update_of_ne hji] at hj
      exact .inr hj
  constructor
  · exact h.reached.tail hc next
  · intro j o' p' e x hj hx
    rcases own hj with ⟨-, rfl⟩ | old
    · exact h.next_found hg he later hx
    · exact (h.found old hx).mono later
  · intro j o' p' y z hj hx
    rcases own hj with ⟨-, rfl⟩ | old
    · exact h.next_hashed hg hc hi he hx
    · exact h.hashed old hx
  · intro j o' p' y z hj hx
    rcases own hj with ⟨-, rfl⟩ | old
    · exact h.next_compared hg hc hi he hx
    · exact h.compared old hx
  · exact fun x hx => (h.exec_chosen hg hi allowed he hx).mono later
  · exact fun hl => (h.exec_carried hg hi allowed he hl).mono later
  · intro j m p' l hj hm
    rcases own hj with ⟨rfl, -⟩ | old
    · exact (h.delivered hg hm).mono later
    · exact (h.delivered old hm).mono later
  · intro row hrow
    rcases h.exec_logged hg allowed he hrow with old | ⟨l, hl, attested⟩
    · exact .inl old
    · exact .inr ⟨l, hl, attested.mono later⟩

theorem Vouched.follow {g' : Machine.Ghost Origin Evidence} {lab : Step}
    (h : Vouched hashes accepts s t g) (hc : BcryptRun hashes accepts t lab)
    (hf : Machine.Follows service .crashed vouching (fun _ => .nothing) t g lab u g') :
    Vouched hashes accepts s u g' := by
  have next := hf.step
  cases hf with
  | @start o sh ha hn =>
    refine h.still hc next (fun {k o' p'} hk => ?_) (accept_users ha) (fun m hm => ?_) ?_
    · by_cases hkn : k = t.threads.length
      · subst hkn
        rw [Function.update_self] at hk
        cases hk
        refine .inr ⟨rfl, fun m l ho hm => ?_⟩
        subst ho
        exact ⟨m, .inl (Origin.accept_delivery ha).1, hm⟩
      · rw [Function.update_of_ne hkn] at hk
        exact .inl hk
    · exact Origin.accept_holds ha m hm
    · exact congrArg Db.loginLogs (Origin.accept_db ha)
  | run hi hg allowed he => exact h.call hg hc hi allowed he
  | @env e sh he =>
    exact h.still hc next (fun hk => .inl hk) (env_users he) (EnvStep.run_holds he)
      (EnvStep.run_entries he).2.2
  | kill _ _ => exact h.still hc next (fun hk => .inl hk) rfl (fun _ hm => hm) rfl

/-- Nothing is claimed at the beginning. -/
theorem Vouched.first (s : State) : Vouched hashes accepts s s fun _ => none where
  reached := .refl
  found hg := by cases hg
  hashed hg := by cases hg
  compared hg := by cases hg
  chosen x hx := .inl ⟨x, hx, rfl, rfl⟩
  carried hl := .inl hl
  delivered hg := by cases hg
  logged _ hrow := .inl hrow

theorem Reach.vouched (hs : s.threads = []) (h : Reach (BcryptRun hashes accepts) s t) :
    ∃ g, Machine.Tracks .crashed vouching Backed t.threads g ∧ Vouched hashes accepts s t g :=
  Machine.Tracks.invariant (service_vouching fun _ _ h => h.1) (.of_nil hs) (.first s)
    (fun _ _ _ _ _ hc _ hI hf => hI.follow hc hf) h

/-- What bcrypt looks at of a password. -/
def firstBytes (password : String) : List UInt8 := password.toUTF8.toList.take 72

/-- A login that was answered had found its account on the way, and the library
had accepted the password for its hash. -/
theorem Reach.login_answered (hs : s.threads = []) (h : Reach (BcryptRun hashes accepts) s t)
    {tok : Int} {b : LoginUserDto} {ip ua : String} {user : PublicUser} {token : Token}
    (told : ⟨.http tok (.login b ip ua), .ret (.ok (.login user token))⟩ ∈ t.threads) :
    ∃ v, Reach (BcryptRun hashes accepts) s v ∧ Reach (BcryptRun hashes accepts) v t ∧
      ∃ x ∈ v.shared.db.users.rows, x.id = token.sub ∧ x.email = b.email ∧
        accepts b.password x.password ∧ Chosen hashes s v x := by
  obtain ⟨g, ht, vouched⟩ := Reach.vouched hs h
  obtain ⟨i, hi⟩ := List.mem_iff_getElem?.mp told
  obtain ⟨p, hg, backed | crashed⟩ := ht.obeys i _ hi
  · obtain ⟨x, found, compared, rfl⟩ := backed tok b ip ua user token rfl rfl
    obtain ⟨v, hv, hvt, looked⟩ := vouched.found hg found
    have hx := List.mem_of_find?_eq_some looked
    have email : x.email = b.email := by simpa using List.find?_some looked
    obtain ⟨_, -, before⟩ := Reach.vouched hs hv
    exact ⟨v, hv, hvt, x, hx, rfl, email, vouched.compared hg compared, before.chosen x hx⟩
  · cases crashed

/-- The password is the one of the signup, unless the hash is from the beginning. -/
theorem Chosen.password_of_accepts (h : Chosen hashes s t x)
    (sound : ∀ y y' z, hashes y z → accepts y' z → firstBytes y' = firstBytes y)
    {b : LoginUserDto} (email : x.email = b.email) (matched : accepts b.password x.password) :
    (∃ x₀ ∈ s.shared.db.users.rows, x₀.email = b.email ∧ x₀.password = x.password) ∨
      ∃ tok' b', (∃ th ∈ t.threads, th.origin = .http tok' (.signup b')) ∧
        b'.email = b.email ∧ firstBytes b.password = firstBytes b'.password := by
  rcases h with ⟨x₀, hx₀, same, password⟩ | ⟨tok', b', started, same, hashed⟩
  · exact .inl ⟨x₀, hx₀, same.trans email, password⟩
  · exact .inr ⟨tok', b', started, same.trans email, sound _ _ _ hashed matched⟩

/-- Whoever gets a token gave a password that the library accepted for the hash
of the account it names; if that hash is not from the beginning, the same
password was given before in a signup with this email. -/
theorem tokens_need_the_password (hs : s.threads = []) (h : Reach (BcryptRun hashes accepts) s t)
    (sound : ∀ y y' z, hashes y z → accepts y' z → firstBytes y' = firstBytes y)
    {tok : Int} {b : LoginUserDto} {ip ua : String} {user : PublicUser} {token : Token}
    (told : ⟨.http tok (.login b ip ua), .ret (.ok (.login user token))⟩ ∈ t.threads) :
    ∃ v, Reach (BcryptRun hashes accepts) s v ∧ Reach (BcryptRun hashes accepts) v t ∧
      ∃ x ∈ v.shared.db.users.rows, x.id = token.sub ∧ x.email = b.email ∧
        accepts b.password x.password ∧
        ((∃ x₀ ∈ s.shared.db.users.rows, x₀.email = b.email ∧ x₀.password = x.password) ∨
          ∃ tok' b', (∃ th ∈ v.threads, th.origin = .http tok' (.signup b')) ∧
            b'.email = b.email ∧ firstBytes b.password = firstBytes b'.password) := by
  obtain ⟨v, hv, hvt, x, hx, id, email, matched, chosen⟩ := Reach.login_answered hs h told
  exact ⟨v, hv, hvt, x, hx, id, email, matched, chosen.password_of_accepts sound email matched⟩

/-- Every login attempt in the broker was made, with this outcome, and every login
log tells of one, unless they were there at the beginning. -/
theorem login_logs_are_true (hs : s.threads = []) (h : Reach (BcryptRun hashes accepts) s t) :
    (∀ l, t.shared.broker.Carries l → s.shared.broker.Carries l ∨ AttemptMade hashes accepts s t l) ∧
    ∀ row ∈ t.shared.db.loginLogs, row ∈ s.shared.db.loginLogs ∨
      ∃ l, row = l.row ∧ (s.shared.broker.Carries l ∨ AttemptMade hashes accepts s t l) := by
  obtain ⟨_, -, vouched⟩ := Reach.vouched hs h
  exact ⟨fun _ => vouched.carried, vouched.logged⟩

end
/-! ## Bob logs in -/

/-- A library that hashes without a salt. -/
def crypt (password : String) : String := "$2b$10$" ++ password

def cryptAnswers (s : State) : Step → Bool
  | .start o => Step.sparesProfiles (.start o)
  | .run i (.ok a) => match s.threads[i]? with
    | some ⟨_, .call (.library (.hash x)) _⟩ => a.text = crypt x
    | some ⟨_, .call (.library (.compare x h)) _⟩ => !a.flag || h = crypt x
    | _ => true
  | _ => true

theorem bcryptRun_of_cryptAnswers {s : State} {l : Step} (h : cryptAnswers s l = true) :
    BcryptRun (fun x z => z = crypt x) (fun x z => z = crypt x) s l := by
  refine ⟨fun tok body client he => ?_, fun i a o x k he hi => ?_, fun i a o x z k he hi flag => ?_⟩
  · subst he
    cases h
  · subst he
    simpa [cryptAnswers, hi] using h
  · subst he
    simpa [cryptAnswers, hi, flag] using h

/-- Bob signs up and logs in, and the login is recorded. -/
def bobRecorded : List Step :=
  [signupBob, .run 0 (.ok {}), .run 0 (.ok { text := crypt "secret" }), .run 0 (.ok {}),
    .start (.http 0 (.login ⟨"bob@a", "secret"⟩ "::1" "curl")),
    .run 1 (.ok {}), .run 1 (.ok { flag := true })] ++ calls 1 2 ++
  .start (.delivery ⟨.loginLogs, .login ⟨some 1, "bob@a", "::1", "curl", none, true⟩, none, 0⟩) ::
    calls 2 1

theorem bobRecorded_runs : ∃ t,
    Reach (BcryptRun (fun x z => z = crypt x) fun x z => z = crypt x) State.empty t ∧
    t.shared.db.loginLogs = [⟨some 1, "::1", "curl", ""⟩] ∧
    ∃ user token, ⟨.http 0 (.login ⟨"bob@a", "secret"⟩ "::1" "curl"), .ret (.ok (.login user token))⟩ ∈
      t.threads := by
  have h : (service.runsIf .crashed cryptAnswers bobRecorded State.empty).any (fun t =>
      t.shared.db.loginLogs = [⟨some 1, "::1", "curl", ""⟩] ∧
      (t.threads.any fun th => (ServiceThread.login? th).any fun x => x.1 = 0 ∧
        x.2.1 = ⟨"bob@a", "secret"⟩ ∧ x.2.2.1 = "::1" ∧ x.2.2.2.1 = "curl")) = true := by decide +kernel
  obtain ⟨t, ht, hp⟩ := (Option.any_eq_true _ _).mp h
  obtain ⟨logs, logged⟩ := of_decide_eq_true hp
  obtain ⟨th, hth, hl⟩ := List.any_eq_true.mp logged
  obtain ⟨⟨tok, b, ip, ua, user, token⟩, hx, same⟩ := (Option.any_eq_true _ _).mp hl
  obtain ⟨rfl, rfl, rfl, rfl⟩ := of_decide_eq_true same
  rw [ServiceThread.login?_eq_some hx] at hth
  exact ⟨t, Machine.reach_of_runsIf (fun _ _ => bcryptRun_of_cryptAnswers) ht, logs, user, token, hth⟩

theorem tokens_need_the_password_bob : ∃ (v : State) (x : User), x ∈ v.shared.db.users.rows ∧
    x.password = crypt "secret" ∧
    ((∃ x₀ ∈ State.empty.shared.db.users.rows, x₀.email = "bob@a" ∧ x₀.password = x.password) ∨
      ∃ tok' b', (∃ th ∈ v.threads, th.origin = .http tok' (.signup b')) ∧
        b'.email = "bob@a" ∧ firstBytes "secret" = firstBytes b'.password) := by
  obtain ⟨t, reach, -, user, token, told⟩ := bobRecorded_runs
  have sound (y y' z : String) (hy : z = crypt y) (hy' : z = crypt y') : firstBytes y' = firstBytes y := by
    rw [hy, crypt, crypt, String.append_right_inj] at hy'
    rw [hy']
  obtain ⟨v, -, -, x, hx, -, -, matched, chosen⟩ := tokens_need_the_password rfl reach sound told
  exact ⟨v, x, hx, matched, chosen⟩

theorem login_logs_are_true_bob : ∃ (t : State) (l : LoginAttempt),
    t.shared.db.loginLogs = [⟨some 1, "::1", "curl", ""⟩] ∧ l.row = ⟨some 1, "::1", "curl", ""⟩ ∧
    (State.empty.shared.broker.Carries l ∨
      AttemptMade (fun x z => z = crypt x) (fun x z => z = crypt x) State.empty t l) := by
  obtain ⟨t, reach, logs, -⟩ := bobRecorded_runs
  have recorded : ⟨some 1, "::1", "curl", ""⟩ ∈ t.shared.db.loginLogs := by
    rw [logs]
    exact .head _
  rcases (login_logs_are_true rfl reach).2 _ recorded with old | ⟨l, hl, attested⟩
  · cases old
  · exact ⟨t, l, logs, hl.symm, attested⟩

end Pactic
