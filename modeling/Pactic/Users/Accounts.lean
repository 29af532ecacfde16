import Pactic.Users.Usernames

/-! # Accounts and tokens

As long as nobody updates a profile, a row of the users table is changed only by
a signup with its email or by the deletion its owner asks for. So an id and an
email name one account for ever, and the token a login returns names the account
whose password was compared. -/
namespace Pactic
open Keyed Resumption

/-- Anything but a profile update, which may set any column. -/
def NoProfileUpdate (_ : State) (l : Step) : Prop :=
  ∀ tok body client, l ≠ .start (.http tok (.updateProfile body client))

/-- The accounts a thread has looked up by their email, and the passwords that
the library has compared well with a hash. -/
structure Credentials where
  found : List (String × User)
  matched : List (String × String)

/-- Who may change an account. -/
def Origin.AllowsAccounts (o : Origin) : Op → Prop
  | .prisma (.userUpsert e n _) => ∃ tok b, o = .http tok (.signup b) ∧ e = b.email ∧ n = b.username
  | .prisma (.userUpdate id d) =>
    o = .http id (.deleteUser id) ∧ ∃ now, d = some { deletedAt := some (some now) }
  | _ => True

def Credentials.next (p : Credentials) : (op : Op) → Except Err op.Res → Credentials
  | .prisma (.userFindByEmail e), .ok (some u) => { p with found := (e, u) :: p.found }
  | .library (.compare x y), .ok true => { p with matched := (x, y) :: p.matched }
  | _, _ => p

def accountability (o : Origin) : Monitor Op Op.Res Err Credentials :=
  ⟨fun _ => o.AllowsAccounts, Credentials.next⟩

def Credentials.nothing : Credentials := ⟨[], []⟩

/-- A login that succeeds has found the account, undeleted, and compared its
password; its token names that account. -/
def SignsIn (o : Origin) (r : Except Err Reply) (p : Credentials) : Prop :=
  ∀ tok b ip ua user token, o = .http tok (.login b ip ua) → r = .ok (.login user token) →
    ∃ u, (b.email, u) ∈ p.found ∧ (b.password, u.password) ∈ p.matched ∧ u.deletedAt = none ∧
      user = u.withoutPassword ∧ token = ⟨u.id, u.email⟩

section
variable {α : Type} {o : Origin} {p : Credentials}

theorem spares_account {op : Op} (h : op.sparesUsers = true) : o.AllowsAccounts op := by
  cases op with
  | prisma op =>
    cases op with
    | userUpsert e n x => cases h
    | userUpdate id d => cases h
    | _ => trivial
  | _ => trivial

theorem Spares.accountability {c : Proc α} (h : Spares c) :
    (Pactic.accountability o).wp c (fun _ _ => True) p := by
  have all : (Pactic.accountability o).Maintains (fun _ => True) c :=
    .of_only (fun _ _ _ hop => ⟨spares_account hop, fun _ => trivial⟩) h
  exact all p trivial

/-- Announcing the attempt is no part of it. -/
theorem announce_accountability {l : LoginAttempt} {c : Proc α}
    {Q : Except Err α → Credentials → Prop} (hc : (accountability o).wp c Q p)
    (he : ∀ e, Q (.error e) p) :
    (accountability o).wp (do sendToQueue .loginLogs (.login l) none; c) Q p := by
  have publishes : (sendToQueue .loginLogs (.login l) none).Only fun op => ∃ op', op = .rabbit op' :=
    .tryCatch (.bind (.perform ⟨_, rfl⟩) fun _ => .perform ⟨_, rfl⟩) fun _ => trivial
  have still (op : Op) (h : ∃ op', op = .rabbit op') :
      (accountability o).allow p op ∧ ∀ r, (accountability o).next p op r = p := by
    obtain ⟨op', rfl⟩ := h
    exact ⟨trivial, fun _ => rfl⟩
  refine (Monitor.wp_bind _ _ _ _ _).mpr
    (Monitor.wp_mono _ (Monitor.wp_of_only _ still publishes) fun r q hq => ?_)
  subst hq
  cases r with
  | ok _ => exact hc
  | error e => exact he e

/-- Who gets a token has named the account and its password. -/
theorem login_signsIn (b : LoginUserDto) (ip ua : String) :
    (accountability o).wp (UsersService.login b ip ua) (fun r q => ∀ x, r = .ok x →
      ∃ u, (b.email, u) ∈ q.found ∧ (b.password, u.password) ∈ q.matched ∧ u.deletedAt = none ∧
        x = (u.withoutPassword, ⟨u.id, u.email⟩)) p := by
  refine (Monitor.wp_perform_bind _ _ _ _ _).mpr ⟨trivial, fun found => ?_, nofun⟩
  cases found with
  | none =>
    refine announce_accountability ?_ fun e x hx => (by cases hx)
    intro x hx
    cases hx
  | some u =>
    refine (Monitor.wp_perform_bind _ _ _ _ _).mpr ⟨trivial, fun isMatch => ?_, fun e x hx => by cases hx⟩
    dsimp only
    refine announce_accountability ?_ fun e x hx => (by cases hx)
    cases isMatch with
    | false =>
      intro x hx
      cases hx
    | true =>
      simp only [Bool.not_true, Bool.false_eq_true, if_false]
      split
      · intro x hx
        cases hx
      · next live =>
        intro x hx
        cases hx
        exact ⟨u, .head _, .head _, not_not.mp live, rfl⟩

theorem signup_accountability (tok : Int) (b : CreateUserDto) :
    (accountability (.http tok (.signup b))).wp (UsersController.signup b) (fun _ _ => True) p := by
  have all : (accountability (.http tok (.signup b))).Maintains (fun _ => True)
      (UsersService.create b) := by
    refine .bind ?_ fun found => ?_
    · exact fun p _ => ⟨trivial, fun _ => trivial⟩
    split
    · exact .ret _
    · refine .bind (fun p _ => ⟨trivial, fun _ => trivial⟩) fun hash => .bind ?_ fun u => .ret _
      exact fun p _ => ⟨⟨tok, b, rfl, rfl, rfl⟩, fun _ => trivial⟩
  exact (all.bind fun _ => .ret _) p trivial

theorem deleteUser_accountability (tok u : Int) :
    (accountability (.http tok (.deleteUser u))).wp (UsersController.deleteUser u tok)
      (fun _ _ => True) p := by
  unfold UsersController.deleteUser validateTokenUser
  split
  · trivial
  · next same =>
    obtain rfl : u = tok := not_not.mp same
    refine (Monitor.wp_perform_bind _ _ _ _ _).mpr ⟨trivial, fun found => ?_, fun _ => trivial⟩
    cases found with
    | none => trivial
    | some user =>
      dsimp only
      split
      · trivial
      · refine (Monitor.wp_perform_bind _ _ _ _ _).mpr ⟨trivial, fun now => ?_, fun _ => trivial⟩
        refine (Monitor.wp_perform_bind _ _ _ _ _).mpr
          ⟨⟨rfl, now, rfl⟩, fun _ => ⟨trivial, fun r => ?_⟩, fun _ => trivial⟩
        cases r <;> trivial

theorem service_accountability {C : State → Step → Prop} (hC : ∀ s l, C s l → NoProfileUpdate s l) :
    Machine.Obeys service accountability SignsIn (fun _ => .nothing) C := by
  intro s o sh hc ha
  have plain {r : Request} {tok : Int} (hn : ∀ b ip ua, r ≠ .login b ip ua)
      (h : (accountability (.http tok r)).wp (r.program tok) (fun _ _ => True) .nothing) :
      (accountability (.http tok r)).wp (r.program tok) (SignsIn (.http tok r)) .nothing := by
    refine Monitor.wp_mono _ h fun x q _ => ?_
    intro tok b ip ua user token ho
    cases ho
    exact absurd rfl (hn b ip ua)
  cases o with
  | delivery m =>
    have spares : Spares (Origin.program (.delivery m)) := Monitor.only_of_wp (protocol (.delivery m))
      (fun _ _ => sparesUsers_of_protocol) (Origin.program_keeps (Origin.accept_delivery ha).2.1)
    exact Monitor.wp_mono _ spares.accountability fun _ _ _ => nofun
  | http tok r =>
    have wallets (hw : r.ofWallets = true) : Spares (r.program tok) :=
      Monitor.only_of_wp (protocol (.http tok r)) (fun _ _ => sparesUsers_of_protocol)
        (Origin.program_keeps (o := .http tok r) hw)
    cases r with
    | signup b => exact plain nofun (signup_accountability tok b)
    | deleteUser u => exact plain nofun (deleteUser_accountability tok u)
    | updateProfile body client => exact absurd rfl (hC _ _ hc tok body client)
    | getProfile u => exact plain nofun (getProfile_spares u tok).accountability
    | login b ip ua =>
      refine (Monitor.wp_bind _ _ _ _ _).mpr (Monitor.wp_mono _ (login_signsIn b ip ua) fun r q hq => ?_)
      cases r with
      | error e => exact nofun
      | ok x =>
        intro tok' b' ip' ua' user token ho hr
        cases ho
        cases hr
        obtain ⟨u, found, matched, live, rfl⟩ := hq x rfl
        exact ⟨u, found, matched, live, rfl, rfl⟩
    | _ => exact plain nofun (wallets rfl).accountability

end

/-! ## What a step does to the accounts -/

/-- One step of the service on the users table: nothing, a deletion with the
token of the account, a signup with its email, or a new account. -/
inductive AccountStep (t : State) (l : Step) (users : Table User.id) : Prop where
  | same : users = t.shared.db.users → AccountStep t l users
  | deleted {i c q v now at'} : l = .run i c → t.threads[i]? = some ⟨.http v.id (.deleteUser v.id), q⟩ →
      v ∈ t.shared.db.users.rows →
      users = t.shared.db.users.put { v with deletedAt := some now, updatedAt := at' } →
      AccountStep t l users
  | renewed {i c q v tok b password at'} : l = .run i c →
      t.threads[i]? = some ⟨.http tok (.signup b), q⟩ → v ∈ t.shared.db.users.rows → v.email = b.email →
      users = t.shared.db.users.put { v with
        username := b.username, password := password, updatedAt := at', deletedAt := none } →
      AccountStep t l users
  | opened {i c q u tok b} : l = .run i c → t.threads[i]? = some ⟨.http tok (.signup b), q⟩ →
      u.email = b.email → (∀ v ∈ t.shared.db.users.rows, v.email ≠ b.email) →
      t.shared.db.users.insert? u = some users → AccountStep t l users

section
variable {s t u : State} {l : Step} {sh sh' : Shared} {i : Nat} {o : Origin}

/-- An upsert sets the row with the email, or adds it. -/
theorem exec_upsert_sets {c : Choice} {e n p : String} {r}
    (h : exec c i o (.prisma (.userUpsert e n p)) sh = some (sh', r)) :
    sh'.db.users = sh.db.users ∨
    (∃ v ∈ sh.db.users.rows, v.email = e ∧ sh'.db.users = sh.db.users.put { v with
      username := n, password := p, updatedAt := sh.db.now, deletedAt := none }) ∨
    ∃ v, v.email = e ∧ v.password = p ∧ (∀ x ∈ sh.db.users.rows, x.email ≠ e) ∧
      sh.db.users.insert? v = some sh'.db.users := by
  rcases exec_cases h with ⟨rfl, -⟩ | ⟨a, r₀, hrun, -⟩
  · exact .inl rfl
  simp only [Op.run, PrismaOp.run] at hrun
  split at hrun
  · next v hv =>
    cases hrun
    exact .inr (.inl ⟨v, List.mem_of_find?_eq_some hv, by simpa using List.find?_some hv, rfl⟩)
  · next hnone =>
    split at hrun
    · next ins =>
      cases hrun
      refine .inr (.inr ⟨_, rfl, rfl, fun v hv => ?_, ins⟩)
      simpa using List.find?_eq_none.mp hnone v hv
    · cases hrun
      exact .inl rfl

/-- The same where an update keeps the id and writes no relations. -/
theorem exec_entries_of_columns {op : Op} {c : Choice} {r}
    (hu : ∀ id d, op = .prisma (.userUpdate id (some d)) → d.id = none ∧ d.nested = some)
    (h : exec c i o op sh = some (sh', r)) :
    sh.db.transactions.rows <+: sh'.db.transactions.rows ∧
      (sh'.db.notifications = sh.db.notifications ∨ ∃ n, op = .prisma (.notificationCreate n) ∧
        sh'.db.notifications = sh.db.notifications ++ [n]) ∧
      (sh'.db.loginLogs = sh.db.loginLogs ∨ ∃ l, op = .prisma (.loginLogCreate l) ∧
        sh'.db.loginLogs = sh.db.loginLogs ++ [l]) := by
  by_cases update : ∃ id d, op = .prisma (.userUpdate id d)
  · obtain ⟨id, data, rfl⟩ := update
    rcases exec_update h with ⟨rfl, -⟩ | ⟨d, v, db, rfl, hv, hdb, rfl, -⟩
    · exact ⟨List.prefix_rfl, .inl rfl, .inl rfl⟩
    obtain ⟨hid, nested⟩ := hu id d rfl
    -- The account keeps its id, so no foreign key changes.
    have key : v.id = id := (Table.find?_eq_some.mp hv).2
    simp only [Db.replaceUser, UserUpdate.apply, hid, nested, Option.getD_none, key, if_true] at hdb
    split at hdb
    · cases hdb
    · cases hdb
      exact ⟨List.prefix_rfl, .inl rfl, .inl rfl⟩
  · exact exec_entries (fun id d he => update ⟨id, d, he⟩) h

theorem Reach.account_step (hs : s.threads = []) (h : Reach NoProfileUpdate s t)
    (hst : step t l = some u) : AccountStep t l u.shared.db.users := by
  obtain ⟨g, ht, -⟩ := Machine.Tracks.invariant (I := fun _ _ => True)
    (service_accountability fun _ _ => id) (.of_nil hs) trivial (fun _ _ _ _ _ _ _ _ _ => trivial) h
  cases Machine.step_fires hst with
  | start ha => exact .same (accept_users ha)
  | env he => exact .same (env_users he)
  | kill _ => exact .same rfl
  | @run i c o op k sh r hi he =>
    obtain ⟨p, -, allowed, -⟩ := ht.called hi
    have allowed : o.AllowsAccounts op := allowed
    by_cases hop : op.sparesUsers = true
    · exact .same (exec_spares hop he)
    cases op with
    | prisma op =>
      cases op with
      | userFindFirst e n => exact .same (exec_check he).1
      | userUpsert e n pw =>
        obtain ⟨tok, b, rfl, rfl, rfl⟩ := allowed
        rcases exec_upsert_sets he with same | ⟨v, hv, email, put⟩ | ⟨v, email, -, free, ins⟩
        · exact .same same
        · exact .renewed rfl hi hv email put
        · exact .opened rfl hi email free ins
      | userUpdate id d =>
        obtain ⟨rfl, now, rfl⟩ := allowed
        have columns : ∀ d, some ({ deletedAt := some (some now) } : UserUpdate) = some d →
            d.id = none ∧ d.nested = some := by
          intro d hd
          cases hd
          exact ⟨rfl, rfl⟩
        rcases exec_userUpdate columns he with same | ⟨d, v, hd, -, hv, -, put⟩
        · exact .same same
        · cases hd
          obtain ⟨hmem, rfl⟩ := Table.find?_eq_some.mp hv
          exact .deleted rfl hi hmem put
      | _ => exact absurd rfl hop
    | _ => exact absurd rfl hop

/-- The same account, whatever its username, password and deletion. -/
structure User.SameAccount (v w : User) : Prop where
  id : w.id = v.id
  email : w.email = v.email
  createdAt : w.createdAt = v.createdAt

theorem User.SameAccount.rfl {v : User} : v.SameAccount v := ⟨.refl _, .refl _, .refl _⟩

theorem User.SameAccount.trans {v w x : User} (h : v.SameAccount w) (h' : w.SameAccount x) :
    v.SameAccount x where
  id := h'.id.trans h.id
  email := h'.email.trans h.email
  createdAt := h'.createdAt.trans h.createdAt

/-- The accounts of one table are those of another, later one; whoever is new
there has an email of its own. -/
structure Successor (users users' : Table User.id) : Prop where
  kept : ∀ v ∈ users.rows, ∃ w ∈ users'.rows, v.SameAccount w
  fresh : ∀ w ∈ users'.rows, (∃ v ∈ users.rows, v.SameAccount w) ∨ ∀ v ∈ users.rows, v.email ≠ w.email

theorem Successor.refl (users : Table User.id) : Successor users users where
  kept v hv := ⟨v, hv, .rfl⟩
  fresh w hw := .inl ⟨w, hw, .rfl⟩

theorem Successor.trans {x y z : Table User.id} (h : Successor x y) (h' : Successor y z) :
    Successor x z where
  kept v hv := by
    obtain ⟨w, hw, same⟩ := h.kept v hv
    obtain ⟨w', hw', same'⟩ := h'.kept w hw
    exact ⟨w', hw', same.trans same'⟩
  fresh w hw := by
    rcases h'.fresh w hw with ⟨v, hv, same⟩ | free
    · rcases h.fresh v hv with ⟨v₀, hv₀, same₀⟩ | free
      · exact .inl ⟨v₀, hv₀, same₀.trans same⟩
      · exact .inr fun x hx => same.email ▸ free x hx
    · refine .inr fun v hv => ?_
      obtain ⟨w', hw', same⟩ := h.kept v hv
      exact same.email ▸ free w' hw'

theorem Successor.put {users : Table User.id} {v w : User} (hv : v ∈ users.rows)
    (same : v.SameAccount w) : Successor users (users.put w) where
  kept x hx := by
    by_cases hid : x.id = w.id
    · have hxv : x = v := Table.eq_of_key _ hx hv (hid.trans same.id)
      exact ⟨w, Table.mem_put.mpr (.inr ⟨rfl, v, hv, same.id.symm⟩), hxv ▸ same⟩
    · exact ⟨x, Table.mem_put.mpr (.inl ⟨hx, hid⟩), .rfl⟩
  fresh x hx := by
    rcases Table.mem_put.mp hx with ⟨hx, -⟩ | ⟨rfl, -⟩
    · exact .inl ⟨x, hx, .rfl⟩
    · exact .inl ⟨v, hv, same⟩

theorem AccountStep.successor {users : Table User.id} (h : AccountStep t l users) :
    Successor t.shared.db.users users := by
  cases h with
  | same h => exact h ▸ .refl _
  | deleted _ _ hv h => exact h ▸ .put hv ⟨rfl, rfl, rfl⟩
  | renewed _ _ hv _ h => exact h ▸ .put hv ⟨rfl, rfl, rfl⟩
  | opened _ _ email free ins =>
    have rows := (Table.insert?_eq_some.mp ins).2
    constructor
    · intro v hv
      exact ⟨v, rows ▸ List.mem_append_left _ hv, .rfl⟩
    · intro w hw
      rw [rows] at hw
      rcases List.mem_append.mp hw with hw | hw
      · exact .inl ⟨w, hw, .rfl⟩
      · cases List.mem_singleton.mp hw
        exact .inr fun v hv => email ▸ free v hv

theorem Reach.successor (hs : s.threads = []) (h : Reach NoProfileUpdate s t)
    (h' : Reach NoProfileUpdate t u) : Successor t.shared.db.users u.shared.db.users := by
  induction h' with
  | refl => exact .refl _
  | tail hr _ hst ih => exact ih.trans (Reach.account_step hs (h.trans hr) hst).successor

/-- An account is changed by its owner's deletion and by signups with its email
only, and only what these set. -/
theorem accounts_change_by_their_owner (hs : s.threads = []) (h : Reach NoProfileUpdate s t)
    (hst : step t l = some u) {v w : User} (hv : v ∈ t.shared.db.users.rows)
    (hw : w ∈ u.shared.db.users.rows) (hid : w.id = v.id) (hne : w ≠ v) :
    ∃ i c q, l = .run i c ∧
      ((t.threads[i]? = some ⟨.http v.id (.deleteUser v.id), q⟩ ∧ w.deletedAt ≠ none ∧
          w = { v with deletedAt := w.deletedAt, updatedAt := w.updatedAt }) ∨
        ∃ tok b, t.threads[i]? = some ⟨.http tok (.signup b), q⟩ ∧ b.email = v.email ∧
          w = { v with username := b.username, password := w.password, updatedAt := w.updatedAt
                       deletedAt := none }) := by
  have written {x y : User} (hx : x ∈ t.shared.db.users.rows)
      (hp : u.shared.db.users = t.shared.db.users.put y) (hy : y.id = x.id) : v = x ∧ w = y := by
    rw [hp] at hw
    rcases Table.mem_put.mp hw with ⟨hw, -⟩ | ⟨rfl, -⟩
    · exact absurd (Table.eq_of_key _ hw hv hid) hne
    · exact ⟨Table.eq_of_key _ hv hx (hid.symm.trans hy), rfl⟩
  cases Reach.account_step hs h hst with
  | same hsame => exact absurd (Table.eq_of_key _ (hsame ▸ hw) hv hid) hne
  | @deleted i c q x now at' hl hi hx hp =>
    obtain ⟨rfl, rfl⟩ := written hx hp rfl
    exact ⟨i, c, q, hl, .inl ⟨hi, by simp, rfl⟩⟩
  | @renewed i c q x tok b password at' hl hi hx email hp =>
    obtain ⟨rfl, rfl⟩ := written hx hp rfl
    exact ⟨i, c, q, hl, .inr ⟨tok, b, hi, email.symm, rfl⟩⟩
  | opened _ _ _ _ ins =>
    rw [(Table.insert?_eq_some.mp ins).2] at hw
    rcases List.mem_append.mp hw with hw | hw
    · exact absurd (Table.eq_of_key _ hw hv hid) hne
    · cases List.mem_singleton.mp hw
      have taken := (Table.insert?_eq_some.mp ins).1
      rw [hid, Table.find?_eq_some.mpr ⟨hv, rfl⟩] at taken
      cases taken

/-- An id and an email name the same account in every later state, and accounts
have different emails if they had at the beginning. -/
theorem accounts_keep_identity (hs : s.threads = [])
    (he : s.shared.db.users.UniqueOn (fun _ => True) User.email) (h : Reach NoProfileUpdate s t)
    (h' : Reach NoProfileUpdate t u) : Successor t.shared.db.users u.shared.db.users ∧
      u.shared.db.users.UniqueOn (fun _ => True) User.email := by
  refine ⟨Reach.successor hs h h', ?_⟩
  have all : ∀ {v}, Reach NoProfileUpdate s v → v.shared.db.users.UniqueOn (fun _ => True) User.email := by
    intro v hr
    induction hr with
    | refl => exact he
    | @tail v x l hr _ hst ih =>
      have apart {y w : User} (hy : y ∈ v.shared.db.users.rows) (hid : w.id = y.id)
          (email : w.email = y.email) : (v.shared.db.users.put w).UniqueOn (fun _ => True) User.email := by
        refine ih.put fun _ z hz hne _ hze => hne ?_
        rw [ih z hz y hy trivial trivial (hze.trans email), hid]
      cases Reach.account_step hs hr hst with
      | same hsame => exact hsame ▸ ih
      | deleted _ _ hy hp => exact hp ▸ apart hy rfl rfl
      | renewed _ _ hy _ hp => exact hp ▸ apart hy rfl rfl
      | opened _ _ email free ins => exact ih.insert ins fun _ y hy _ => email ▸ free y hy
  exact all (h.trans h')

/-- What a thread found was in the table then. -/
structure FoundThere (s : State) (t : State) (g : Machine.Ghost Origin Credentials) : Prop where
  reached : Reach NoProfileUpdate s t
  found : ∀ {i o p e x}, g i = some (o, p) → (e, x) ∈ p.found → x.email = e ∧
    ∃ v, Reach NoProfileUpdate s v ∧ Reach NoProfileUpdate v t ∧ x ∈ v.shared.db.users.rows

theorem FoundThere.follow {g g' : Machine.Ghost Origin Credentials} (h : FoundThere s t g)
    (hc : NoProfileUpdate t l)
    (hf : Machine.Follows service .crashed accountability (fun _ => .nothing) t g l u g') :
    FoundThere s u g' := by
  have next := hf.step
  have old {i o p e x} (hk : g i = some (o, p)) (hx : (e, x) ∈ p.found) : x.email = e ∧
      ∃ v, Reach NoProfileUpdate s v ∧ Reach NoProfileUpdate v u ∧ x ∈ v.shared.db.users.rows := by
    obtain ⟨he, v, hv, hvt, hmem⟩ := h.found hk hx
    exact ⟨he, v, hv, hvt.tail hc next, hmem⟩
  refine ⟨h.reached.tail hc next, fun {k o' p' e x} hk hx => ?_⟩
  cases hf with
  | start ha _ =>
    by_cases hn : k = t.threads.length
    · subst hn
      rw [Function.update_self] at hk
      cases hk
      cases hx
    · rw [Function.update_of_ne hn] at hk
      exact old hk hx
  | @run i c o op f sh r p hi hg _ he =>
    by_cases hki : k = i
    · subst hki
      rw [Function.update_self] at hk
      cases hk
      have hx : (e, x) ∈ (p.next op r).found := hx
      unfold Credentials.next at hx
      split at hx
      · next e' y =>
        rcases List.mem_cons.mp hx with new | hx
        · cases new
          rcases exec_answer he with ⟨a, -, hrun⟩ | failed
          · simp only [Op.run, PrismaOp.run, Option.some.injEq, Prod.mk.injEq, Except.ok.injEq] at hrun
            obtain ⟨rfl, found⟩ := hrun
            refine ⟨by simpa using List.find?_some found, t, h.reached, .tail .refl hc next, ?_⟩
            exact List.mem_of_find?_eq_some found
          · cases failed
        · exact old hg hx
      · exact old hg hx
      · exact old hg hx
    · rw [Function.update_of_ne hki] at hk
      exact old hk hx
  | env he => exact old hk hx
  | kill _ _ => exact old hk hx

/-- The token of a login names the account with the email given, which was there,
undeleted, with a password that compared well; and it names no other account ever
after. -/
theorem tokens_name_their_account (hs : s.threads = []) (h : Reach NoProfileUpdate s t)
    {tok : Int} {b : LoginUserDto} {ip ua : String} {user : PublicUser} {token : Token}
    (told : ⟨.http tok (.login b ip ua), .ret (.ok (.login user token))⟩ ∈ t.threads) :
    token.email = b.email ∧
    (∃ v, Reach NoProfileUpdate s v ∧ Reach NoProfileUpdate v t ∧ ∃ x ∈ v.shared.db.users.rows,
      x.id = token.sub ∧ x.email = b.email ∧ x.deletedAt = none ∧ user = x.withoutPassword) ∧
    ∀ u, Reach NoProfileUpdate t u → ∃ x ∈ u.shared.db.users.rows,
      x.id = token.sub ∧ x.email = b.email ∧ x.createdAt = user.createdAt := by
  obtain ⟨g, ht, there⟩ := Machine.Tracks.invariant (I := FoundThere s)
    (service_accountability fun _ _ => id) (.of_nil hs) ⟨.refl, nofun⟩
    (fun _ _ _ _ _ hc _ hI hf => hI.follow hc hf) h
  obtain ⟨i, hi⟩ := List.mem_iff_getElem?.mp told
  obtain ⟨p, hg, signed | crashed⟩ := ht.obeys i _ hi
  · obtain ⟨x, found, -, live, rfl, rfl⟩ := signed tok b ip ua user token rfl rfl
    obtain ⟨email, v, hv, hvt, hx⟩ := there.found hg found
    refine ⟨email, ⟨v, hv, hvt, x, hx, rfl, email, live, rfl⟩, fun u hu => ?_⟩
    obtain ⟨w, hw, same⟩ := (Reach.successor hs hv (hvt.trans hu)).kept x hx
    exact ⟨w, hw, same.id, same.email.trans email, same.createdAt⟩
  · cases crashed

end

/-! ## A signup, a login and a deletion -/

def Step.sparesProfiles : Step → Bool
  | .start (.http _ (.updateProfile _ _)) => false
  | _ => true

theorem reach_of_sparesProfiles {ls : List Step} {s t : State} (hl : ls.all Step.sparesProfiles = true)
    (h : runSteps ls s = some t) : Reach NoProfileUpdate s t := by
  refine Machine.reach_of_runs (fun l hmem _ tok body client he => ?_) h
  have spares := List.all_eq_true.mp hl l hmem
  rw [he] at spares
  cases spares

/-- Bob signs up and logs in; the library finds that his password matches. -/
def bobLogsIn : List Step :=
  signupBob :: calls 0 3 ++ .start (.http 0 (.login ⟨"bob@a", "secret"⟩ "" "")) ::
  .run 1 (.ok {}) :: .run 1 (.ok { flag := true }) :: calls 1 2

/-- What this thread has logged in. -/
def ServiceThread.login? : ServiceThread → Option (Int × LoginUserDto × String × String × PublicUser × Token)
  | ⟨.http tok (.login b ip ua), .ret (.ok (.login user token))⟩ => some (tok, b, ip, ua, user, token)
  | _ => none

theorem ServiceThread.login?_eq_some {th : ServiceThread} {tok b ip ua user token}
    (h : th.login? = some (tok, b, ip, ua, user, token)) :
    th = ⟨.http tok (.login b ip ua), .ret (.ok (.login user token))⟩ := by
  unfold login? at h
  split at h
  · cases h
    rfl
  · cases h

theorem tokens_name_their_account_bob : ∃ (t : State) (token : Token),
    runSteps bobLogsIn State.empty = some t ∧ token.email = "bob@a" ∧
    ∀ u, Reach NoProfileUpdate t u → ∃ x ∈ u.shared.db.users.rows,
      x.id = token.sub ∧ x.email = "bob@a" := by
  have h : (runSteps bobLogsIn State.empty).any (fun t =>
      (t.threads.getLast?.bind ServiceThread.login?).any fun x => x.2.1.email = "bob@a") = true := by
    decide +kernel
  obtain ⟨t, ht, hp⟩ := runSteps_any h
  obtain ⟨⟨tok, b, ip, ua, user, token⟩, hx, hb⟩ := Option.any_eq_true _ _ |>.mp hp
  have bob : b.email = "bob@a" := of_decide_eq_true hb
  obtain ⟨th, hth, logged⟩ := Option.bind_eq_some_iff.mp hx
  have told := List.mem_of_getLast? hth
  rw [ServiceThread.login?_eq_some logged] at told
  have reach : Reach NoProfileUpdate State.empty t := reach_of_sparesProfiles rfl ht
  obtain ⟨email, -, later⟩ := tokens_name_their_account rfl reach told
  refine ⟨t, token, ht, email.trans bob, fun u hu => ?_⟩
  obtain ⟨x, hmem, id, email, -⟩ := later u hu
  exact ⟨x, hmem, id, email.trans bob⟩

/-- Bob signs up and is about to delete his account. -/
def bobDeletes : List Step :=
  signupBob :: calls 0 3 ++ .start (.http 1 (.deleteUser 1)) :: calls 1 2

theorem bobDeletes_runs : ∃ t u, runSteps bobDeletes State.empty = some t ∧
    step t (.run 1 (.ok {})) = some u ∧
    (t.shared.db.users.rows.map (·.deletedAt) = [none] ∧
      u.shared.db.users.rows.map (·.deletedAt) = [some 0] ∧
      t.shared.db.users.rows.map (·.id) = u.shared.db.users.rows.map (·.id)) := by
  have h : ((runSteps bobDeletes State.empty).bind fun t =>
      (step t (.run 1 (.ok {}))).map fun u => decide
        (t.shared.db.users.rows.map (·.deletedAt) = [none] ∧
          u.shared.db.users.rows.map (·.deletedAt) = [some 0] ∧
          t.shared.db.users.rows.map (·.id) = u.shared.db.users.rows.map (·.id))) = some true := by
    decide +kernel
  obtain ⟨t, u, ht, hu, hp⟩ := runSteps_step h
  exact ⟨t, u, ht, hu, of_decide_eq_true hp⟩

theorem accounts_change_by_their_owner_bob : ∃ (t u : State) (v w : User),
    runSteps bobDeletes State.empty = some t ∧ step t (.run 1 (.ok {})) = some u ∧
    v ∈ t.shared.db.users.rows ∧ w ∈ u.shared.db.users.rows ∧ w ≠ v ∧
    ∃ i c q, Label.run 1 (Choice.ok {}) = (.run i c : Step) ∧
      ((t.threads[i]? = some ⟨.http v.id (.deleteUser v.id), q⟩ ∧ w.deletedAt ≠ none ∧
          w = { v with deletedAt := w.deletedAt, updatedAt := w.updatedAt }) ∨
        ∃ tok b, t.threads[i]? = some ⟨.http tok (.signup b), q⟩ ∧ b.email = v.email ∧
          w = { v with username := b.username, password := w.password, updatedAt := w.updatedAt
                       deletedAt := none }) := by
  obtain ⟨t, u, ht, hu, before, after, ids⟩ := bobDeletes_runs
  have reach : Reach NoProfileUpdate State.empty t := reach_of_sparesProfiles rfl ht
  obtain ⟨v, rest, hv⟩ : ∃ v rest, t.shared.db.users.rows = v :: rest := by
    cases hrows : t.shared.db.users.rows with
    | nil => rw [hrows] at before; cases before
    | cons v rest => exact ⟨v, rest, rfl⟩
  obtain ⟨w, rest', hw⟩ : ∃ w rest, u.shared.db.users.rows = w :: rest := by
    cases hrows : u.shared.db.users.rows with
    | nil => rw [hrows] at after; cases after
    | cons w rest => exact ⟨w, rest, rfl⟩
  rw [hv, hw] at ids
  rw [hv] at before
  rw [hw] at after
  simp only [List.map_cons, List.cons.injEq] at ids before after
  have hne : w ≠ v := by
    intro same
    rw [same, before.1] at after
    cases after.1
  have hmem : v ∈ t.shared.db.users.rows := by rw [hv]; exact .head _
  have hmem' : w ∈ u.shared.db.users.rows := by rw [hw]; exact .head _
  exact ⟨t, u, v, w, ht, hu, hmem, hmem', hne,
    accounts_change_by_their_owner rfl reach hu hmem hmem' ids.1.symm hne⟩

theorem accounts_keep_identity_bob : ∃ t u, runSteps bobDeletes State.empty = some t ∧
    step t (.run 1 (.ok {})) = some u ∧ Successor t.shared.db.users u.shared.db.users := by
  obtain ⟨t, u, ht, hu, -⟩ := bobDeletes_runs
  have reach : Reach NoProfileUpdate State.empty t := reach_of_sparesProfiles rfl ht
  have last : NoProfileUpdate t (.run 1 (.ok {})) := fun _ _ _ h => by cases h
  have unique : State.empty.shared.db.users.UniqueOn (fun _ => True) User.email := by
    intro x hx
    cases hx
  exact ⟨t, u, ht, hu, (accounts_keep_identity rfl unique reach (.tail .refl last hu)).1⟩

end Pactic
