import Pactic.Users.Profile
import Pactic.Users.Signup

/-! # Usernames

No index keeps the usernames of the live accounts apart. A signup is shown one
row with its email or its username, and a profile update does not look at all. -/
namespace Pactic
open Keyed Resumption

/-- The client makes of the body an email, a username or both, or refuses it. -/
def Request.OfNames : Request → Prop
  | signup _ | deleteUser _ => True
  | updateProfile body client => ∀ id d, client id (body.erase "userId") = some d →
      d = { email := d.email, username := d.username }
  | _ => False

/-- Signups, profile updates and deletions, one after the other. -/
structure OneAccountAtATime (s : State) (l : Step) : Prop where
  endpoints : ∀ o, l = .start o → ∃ tok r, o = .http tok r ∧ r.OfNames
  alone : ∀ o i, l = .start o → ¬ s.Busy i

/-- No signup is shown a deleted row while a live account with another email has
its username, and no profile update gives a live account the username of another. -/
structure KeepsUsernames (s : State) (l : Step) : Prop where
  check : ∀ i a tok b k u x, l = .run i (.ok a) →
    s.threads[i]? = some
      ⟨.http tok (.signup b), .call (.prisma (.userFindFirst b.email b.username)) k⟩ →
    s.shared.shown b a.pick = some u → u.deletedAt ≠ none →
    x ∈ s.shared.db.users.rows → x.deletedAt = none → x.username = b.username → x.email = b.email
  rename : ∀ i c o id d k u x, l = .run i c → c ≠ .fail →
    s.threads[i]? = some ⟨o, .call (.prisma (.userUpdate id (some d))) k⟩ →
    s.shared.db.users.find? id = some u → u.deletedAt = none →
    s.shared.db.emailTaken (d.apply s.shared.db.now u) = false →
    x ∈ s.shared.db.users.rows → x.deletedAt = none → d.username = some x.username → x.id = id

/-! ## The programs -/

/-- What the thread may set in the row of a user. -/
def Origin.Sets : Origin → Option UserUpdate → Prop
  | http _ (.updateProfile _ _), data => ∀ d, data = some d →
      d = { email := d.email, username := d.username }
  | http _ (.deleteUser _), data => ∃ now, data = some { deletedAt := some (some now) }
  | _, _ => False

def Origin.AllowsNames (o : Origin) (p : Signing) : Op → Prop
  | .prisma (.userUpdate _ data) => o.Sets data
  | op => o.AllowsUsers p op

/-- The `accounts` of a thread that may update users as well. -/
def naming (o : Origin) : Monitor Op Op.Res Err Signing := ⟨o.AllowsNames, Signing.next⟩

section
variable {o : Origin} {α : Type}

/-- Calls that look for no account to sign up. -/
theorem naming_still {op : Op} (h : op.sparesUsers = true ∨
    ∃ id d, op = .prisma (.userUpdate id d) ∧ o.Sets d) :
    (naming o).allow .start op ∧ ∀ r, (naming o).next .start op r = .start := by
  rcases h with h | ⟨id, d, rfl, hs⟩
  · have still := sparesUsers_still h (o := o)
    cases op with
    | prisma op => cases op <;> first | exact still | cases h
    | _ => exact still
  · exact ⟨hs, fun r => rfl⟩

theorem signup_naming (tok : Int) (b : CreateUserDto) :
    (naming (.http tok (.signup b))).wp (UsersController.signup b) (fun _ _ => True) .start := by
  have keeps : (accounts (.http tok (.signup b))).wp (UsersController.signup b) (fun _ _ => True)
      .start := Monitor.wp_mono _ (signup_keeps tok b) fun _ _ _ => trivial
  refine Monitor.wp_of_allows keeps rfl fun p op h => ?_
  cases op with
  | prisma op => cases op <;> exact h
  | _ => exact h

theorem updateProfile_naming (tok : Int) {body : JsonObject} {client : Client}
    (hr : (Request.updateProfile body client).OfNames) :
    (naming (.http tok (.updateProfile body client))).wp
      (UsersController.updateProfile client body tok) (fun _ _ => True) .start := by
  refine Monitor.wp_mono _ (Monitor.wp_of_only _ (fun op h => naming_still ?_)
    (updateProfile_only client body tok)) fun _ _ _ => trivial
  cases op with
  | redis op => exact .inl rfl
  | prisma op =>
    cases op with
    | userUpdate id d =>
      obtain ⟨-, -, rfl⟩ := h
      exact .inr ⟨id, _, rfl, hr tok⟩
    | _ => exact h.elim
  | _ => exact h.elim

theorem deleteUser_naming (tok u : Int) :
    (naming (.http tok (.deleteUser u))).wp (UsersController.deleteUser u tok)
      (fun _ _ => True) .start := by
  refine Monitor.wp_mono _ (Monitor.wp_of_only _ (fun op h => naming_still h) ?_) fun _ _ _ => trivial
  refine .bind ?_ fun _ => .bind (.perform (.inl rfl)) fun found => ?_
  · unfold validateTokenUser
    split <;> trivial
  · cases found with
    | none => trivial
    | some user =>
      show Prog.Only _ (if user.deletedAt ≠ none then _ else _)
      split
      · trivial
      · exact .bind (.perform (.inl rfl)) fun now =>
          .bind (.perform (.inr ⟨u, _, rfl, now, rfl⟩)) fun _ => .bind (.perform (.inl rfl)) fun _ =>
            trivial

theorem service_naming {C : State → Step → Prop} (hC : ∀ s l, C s l → OneAccountAtATime s l) :
    Machine.Obeys service naming (fun _ _ _ => True) (fun _ => .start) C := by
  intro s o sh hc _
  obtain ⟨tok, r, rfl, hr⟩ := (hC _ _ hc).endpoints o rfl
  cases r with
  | signup b => exact signup_naming tok b
  | updateProfile body client => exact updateProfile_naming tok hr
  | deleteUser u => exact deleteUser_naming tok u
  | _ => exact hr.elim

end

/-! ## The users table -/

def User.Live (u : User) : Prop := u.deletedAt = none

/-- Emails are apart, and so are the usernames of the live accounts. -/
structure Apart (users : Table User.id) : Prop where
  emails : users.UniqueOn (fun _ => True) User.email
  usernames : users.UniqueOn User.Live User.username

section
variable {sh sh' : Shared} {i : Nat} {o : Origin} {c : Choice} {t t' : Table User.id} {u v : User}

theorem Apart.put (h : Apart t) (he : ∀ x ∈ t.rows, x.id ≠ u.id → x.email ≠ u.email)
    (hn : u.Live → ∀ x ∈ t.rows, x.id ≠ u.id → x.Live → x.username ≠ u.username) :
    Apart (t.put u) :=
  ⟨h.emails.put fun _ x hx hid _ => he x hx hid, h.usernames.put hn⟩

theorem Apart.insert (h : Apart t) (ins : t.insert? u = some t')
    (he : ∀ x ∈ t.rows, x.email ≠ u.email)
    (hn : ∀ x ∈ t.rows, x.Live → x.username ≠ u.username) : Apart t' :=
  ⟨h.emails.insert ins fun _ x hx _ => he x hx, h.usernames.insert ins fun _ => hn⟩

/-- The row an upsert of this email writes: in place of the one with the email,
or as a new one. -/
theorem exec_upsert_row {e n p : String} {r}
    (h : exec c i o (.prisma (.userUpsert e n p)) sh = some (sh', r)) :
    sh'.db.users = sh.db.users ∨ ∃ u, u.email = e ∧ u.username = n ∧
      ((∃ v ∈ sh.db.users.rows, v.email = e ∧ v.id = u.id ∧ sh'.db.users = sh.db.users.put u) ∨
        (∀ v ∈ sh.db.users.rows, v.email ≠ e) ∧ sh.db.users.insert? u = some sh'.db.users) := by
  rcases exec_cases h with ⟨rfl, -⟩ | ⟨a, r₀, hrun, -⟩
  · exact .inl rfl
  simp only [Op.run, PrismaOp.run] at hrun
  split at hrun
  · next v hv =>
    cases hrun
    have he : v.email = e := by simpa using List.find?_some hv
    exact .inr ⟨{ v with username := n, password := p, updatedAt := sh.db.now, deletedAt := none },
      he, rfl, .inl ⟨v, List.mem_of_find?_eq_some hv, he, rfl, rfl⟩⟩
  · next hnone =>
    split at hrun
    · next ins =>
      cases hrun
      refine .inr ⟨_, rfl, rfl, .inr ⟨fun v hv => ?_, ins⟩⟩
      simpa using List.find?_eq_none.mp hnone v hv
    · cases hrun; exact .inl rfl

/-- An upsert of an email keeps the accounts apart if no live account with
another email has the username. -/
theorem Apart.upsert {e n p : String} {r} (hap : Apart sh.db.users)
    (hn : ∀ x ∈ sh.db.users.rows, x.Live → x.username = n → x.email = e)
    (h : exec c i o (.prisma (.userUpsert e n p)) sh = some (sh', r)) : Apart sh'.db.users := by
  rcases exec_upsert_row h with hu | ⟨u, rfl, rfl, ⟨v, hv, he, hid, hu⟩ | ⟨hnone, ins⟩⟩
  · exact hu ▸ hap
  · -- any row with the email is the row that is replaced
    have other : ∀ x ∈ sh.db.users.rows, x.id ≠ u.id → x.email ≠ u.email := by
      intro x hx hne hxe
      have hxv : x = v := hap.emails x hx v hv trivial trivial (hxe.trans he.symm)
      exact hne (hxv ▸ hid)
    rw [hu]
    exact hap.put other fun _ x hx hne hl hxn => other x hx hne (hn x hx hl hxn)
  · exact hap.insert ins hnone fun x hx hl hxn => hnone x hx (hn x hx hl hxn)

/-- What an update with plain columns does to the users. -/
theorem exec_userUpdate {id : Int} {data : Option UserUpdate} {r}
    (hd : ∀ d, data = some d → d.id = none ∧ d.nested = some)
    (h : exec c i o (.prisma (.userUpdate id data)) sh = some (sh', r)) :
    sh'.db.users = sh.db.users ∨ ∃ d u, data = some d ∧ c ≠ .fail ∧
      sh.db.users.find? id = some u ∧ sh.db.emailTaken (d.apply sh.db.now u) = false ∧
      sh'.db.users = sh.db.users.put (d.apply sh.db.now u) := by
  rcases exec_update h with ⟨rfl, -⟩ | ⟨d, u, db, rfl, hu, hdb, rfl, hr⟩
  · exact .inl rfl
  · obtain ⟨hid, hnested⟩ := hd d rfl
    have hc : c ≠ .fail := by
      rcases hr with ⟨⟨a, rfl⟩, -⟩ | ⟨⟨a, rfl⟩, -⟩
      · exact nofun
      · exact nofun
    have key : (d.apply sh.db.now u).id = id := by
      simp only [UserUpdate.apply, hid, Option.getD_none]
      exact (Table.find?_eq_some.mp hu).2
    have same : ({ d.apply sh.db.now u with id := id } : User) = d.apply sh.db.now u := by
      rw [← key]
    unfold Db.replaceUser at hdb
    rw [same, if_pos key, hnested] at hdb
    split at hdb
    · cases hdb
    · next free =>
      cases hdb
      exact .inr ⟨d, u, rfl, hc, hu, Bool.not_eq_true _ ▸ free, rfl⟩

/-- An update with plain columns keeps the accounts apart, if it gives no live
account the username of another. -/
theorem Apart.update {id : Int} {data : Option UserUpdate} {r} (hap : Apart sh.db.users)
    (hs : o.Sets data) (hn : ∀ d u x, data = some d → c ≠ .fail → sh.db.users.find? id = some u →
      u.Live → sh.db.emailTaken (d.apply sh.db.now u) = false → x ∈ sh.db.users.rows → x.Live →
      d.username = some x.username → x.id = id)
    (h : exec c i o (.prisma (.userUpdate id data)) sh = some (sh', r)) : Apart sh'.db.users := by
  have plain : ∀ d, data = some d → (d.id = none ∧ d.nested = some) ∧
      (d = { email := d.email, username := d.username } ∨
        ∃ now, d = { deletedAt := some (some now) }) := by
    rintro d rfl
    cases o with
    | delivery m => cases hs
    | http tok r =>
      cases r with
      | updateProfile body client =>
        have hd := hs d rfl
        exact ⟨by rw [hd]; exact ⟨rfl, rfl⟩, .inl hd⟩
      | deleteUser u =>
        obtain ⟨now, hd⟩ := hs
        cases hd
        exact ⟨⟨rfl, rfl⟩, .inr ⟨now, rfl⟩⟩
      | _ => cases hs
  rcases exec_userUpdate (fun d hd => (plain d hd).1) h with hu | ⟨d, u, rfl, hc, hu, free, hput⟩
  · exact hu ▸ hap
  obtain ⟨hmem, hid⟩ := Table.find?_eq_some.mp hu
  obtain ⟨⟨hdid, -⟩, hd⟩ := plain d rfl
  have key : (d.apply sh.db.now u).id = u.id := by simp [UserUpdate.apply, hdid]
  rw [hput]
  refine hap.put (fun x hx hne => ?_) fun hl x hx hne hxl hxn => ?_
  · intro hxe
    have taken := List.any_eq_false.mp free x hx
    simp [hne, hxe] at taken
  · rcases hd with hd | ⟨now, rfl⟩
    · have live : u.Live := by rw [hd] at hl; exact hl
      cases hname : d.username with
      | none =>
        have same : x.username = u.username := by simpa [UserUpdate.apply, hname] using hxn
        exact hne (key ▸ congrArg User.id (hap.usernames x hx u hmem hxl live same))
      | some n =>
        have same : n = x.username := by simpa [UserUpdate.apply, hname] using hxn.symm
        exact hne (key ▸ hid ▸ hn d u x rfl hc hu live free hx hxl (same ▸ hname))
    · cases hl

end

/-! ## Signups past their check -/

/-- The accounts are apart, and a signup past its check will not change that. -/
structure Naming (s : State) (g : Signers) : Prop where
  apart : Apart s.shared.db.users
  passed : ∀ {i o op k b x}, s.threads[i]? = some ⟨o, .call op k⟩ → g i = some (o, .passed) →
    o.signup? = some b → x ∈ s.shared.db.users.rows → x.Live → x.username = b.username →
    x.email = b.email

section
variable {s t : State} {g g' : Signers} {l : Step} {i : Nat} {o : Origin} {op : Op}
  {k : Except Err op.Res → Proc Reply} {c : Choice} {sh : Shared} {r : Except Err op.Res} {p : Signing}

/-- One call of the only thread that moves. -/
theorem Naming.call (hc : KeepsUsernames s (.run i c)) (h : Naming s g)
    (hi : s.threads[i]? = some ⟨o, .call op k⟩) (hg : g i = some (o, p))
    (allowed : (naming o).allow p op) (he : exec c i o op s.shared = some (sh, r)) :
    Apart sh.db.users ∧ ∀ b x, (naming o).next p op r = .passed → o.signup? = some b →
      x ∈ sh.db.users.rows → x.Live → x.username = b.username → x.email = b.email := by
  by_cases hop : op.sparesUsers = true
  · have hu := exec_spares hop he
    refine ⟨hu ▸ h.apart, fun b x hp hb hx => ?_⟩
    have stays : (naming o).next p op r = p := Signing.next_spares hop
    exact h.passed hi (by rw [hg, ← stays, hp]) hb (hu ▸ hx)
  cases op with
  | prisma op =>
    cases op with
    | userFindFirst e n =>
      obtain ⟨b, hb, rfl, rfl, rfl⟩ := allowed
      obtain ⟨tok, rfl⟩ := signup_of_signup? hb
      obtain ⟨hu, hr⟩ := exec_check he
      refine ⟨hu ▸ h.apart, fun b' x hp hb' hx hl hn => ?_⟩
      cases hb'
      rw [hu] at hx
      rcases hr with ⟨-, -, rfl⟩ | ⟨a, found, rfl, -, rfl, ⟨rfl, none⟩ | ⟨u, rfl, hshown⟩⟩
      · cases hp
      · exact absurd (.inr hn) (none x hx)
      · -- past the check the row that was shown is deleted
        have deleted : u.deletedAt ≠ none := by
          intro hd
          simp [naming, Signing.next, hd] at hp
        exact hc.check i a tok b k u x rfl hi hshown deleted hx hl hn
    | userUpsert e n pw =>
      obtain ⟨b, hb, rfl, rfl, rfl⟩ := allowed
      exact ⟨h.apart.upsert (fun x => h.passed hi hg hb) he, fun b' x hp => by cases hp⟩
    | userUpdate id data =>
      refine ⟨h.apart.update allowed (fun d u x hd hne hu hl free hx hxl hn => ?_) he,
        fun b x hp hb => ?_⟩
      · subst hd
        exact hc.rename i c o id d k u x rfl hne hi hu hl free hx hxl hn
      · obtain ⟨tok, rfl⟩ := signup_of_signup? hb
        exact allowed.elim
    | _ => exact absurd rfl hop
  | _ => exact absurd rfl hop

theorem Naming.step (ho : OneAccountAtATime s l) (hc : KeepsUsernames s l)
    (alone : ∀ i j, s.Busy i → s.Busy j → i = j) (h : Naming s g)
    (hf : Machine.Follows service .crashed naming (fun _ => .start) s g l t g') : Naming t g' := by
  cases hf with
  | @start o sh ha hnone =>
    have hu := accept_users ha
    refine ⟨hu ▸ h.apart, fun {i o' op k b x} hi hg => ?_⟩
    by_cases hlt : i < s.threads.length
    · rw [List.getElem?_append_left hlt] at hi
      exact absurd ⟨_, _, _, hi⟩ (ho.alone o i rfl)
    · have hlen := (List.getElem?_eq_some_iff.mp hi).1
      rw [List.length_append, List.length_singleton] at hlen
      rw [show i = s.threads.length by omega, Function.update_self] at hg
      cases hg
  | env he =>
    have hu := env_users he
    exact ⟨hu ▸ h.apart, fun hi hg hb hx => h.passed hi hg hb (hu ▸ hx)⟩
  | @kill i o op k p hi hg =>
    refine ⟨h.apart, fun {j o' op' k' b x} hj hgj => ?_⟩
    by_cases hij : i = j
    · subst hij
      rw [List.getElem?_set_self (List.getElem?_eq_some_iff.mp hi).1] at hj
      cases hj
    · rw [List.getElem?_set_ne hij] at hj
      exact h.passed hj hgj
  | @run i c o op k sh r p hi hg allowed he =>
    obtain ⟨apart, passed⟩ := h.call hc hi hg allowed he
    refine ⟨apart, fun {j o' op' k' b x} hj hgj => ?_⟩
    by_cases hij : i = j
    · subst hij
      rw [Function.update_self, Option.some.injEq, Prod.mk.injEq] at hgj
      obtain ⟨rfl, hp⟩ := hgj
      exact passed b x hp
    · rw [List.getElem?_set_ne hij] at hj
      exact absurd (alone i j ⟨_, _, _, hi⟩ ⟨_, _, _, hj⟩) hij

/-- From an empty users table, signups, profile updates and deletions one after
the other keep the usernames of the live accounts apart, as long as no signup is
shown a deleted row in place of a live one with its username and no profile
update takes the username of a live account. -/
theorem usernames_of_live_accounts_apart (hs : s.threads = []) (hu : s.shared.db.users.rows = [])
    (h : Reach (fun s l => OneAccountAtATime s l ∧ KeepsUsernames s l) s t) :
    ∀ u ∈ t.shared.db.users.rows, ∀ v ∈ t.shared.db.users.rows,
      u.deletedAt = none → v.deletedAt = none → u.username = v.username → u = v := by
  have noone (i) : ¬ s.Busy i := by
    rintro ⟨o, op, k, hi⟩
    rw [hs] at hi
    cases hi
  have start : Naming s fun _ => none :=
    ⟨⟨fun x hx => by (rw [hu] at hx; cases hx), fun x hx => by (rw [hu] at hx; cases hx)⟩,
      fun _ hg => by cases hg⟩
  have one (u) (hr : Reach (fun s l => OneAccountAtATime s l ∧ KeepsUsernames s l) s u) :
      ∀ i j, u.Busy i → u.Busy j → i = j :=
    fun i j => hr.alone (fun _ o i hc => hc.1.alone o i rfl) noone
  obtain ⟨g, -, naming⟩ := Machine.Tracks.invariant (service_naming fun _ _ hc => hc.1.1) (.of_nil hs) start
    (fun u g l v g' hc _ hI hf => Naming.step hc.1.1 hc.1.2 hc.2 hI hf) (h.knowing one)
  exact naming.apart.usernames

end

/-- A request starts when the ones before it are done. -/
def startsIdle (s : State) : Step → Bool
  | .start _ => s.idle
  | _ => true

/-- The signup whose email and username the thread is about to look for. -/
def ServiceThread.checks? : ServiceThread → Option CreateUserDto
  | ⟨.http _ (.signup b), .call (.prisma (.userFindFirst _ _)) _⟩ => some b
  | _ => none

/-- The row and the columns the thread is about to set. -/
def ServiceThread.sets? : ServiceThread → Option (Int × UserUpdate)
  | ⟨_, .call (.prisma (.userUpdate id (some d))) _⟩ => some (id, d)
  | _ => none

/-- No other live account has the username, whoever asks for it. -/
def keepsUsernames (s : State) : Step → Bool
  | .run i (.ok a) => s.threads[i]?.all fun th =>
      ((ServiceThread.checks? th).all fun b =>
        (s.shared.shown b a.pick).all (·.deletedAt = none) ||
        s.shared.db.users.rows.all fun x =>
          x.deletedAt ≠ none ∨ x.username ≠ b.username ∨ x.email = b.email) &&
      (ServiceThread.sets? th).all fun w => s.shared.db.users.rows.all fun x =>
        x.deletedAt ≠ none ∨ w.2.username ≠ some x.username ∨ x.id = w.1
  | .run _ _ => false
  | _ => true

theorem start_mem_cons {l : Step} {n m : Nat} {ls : List Step} {o : Origin}
    (h : .start o ∈ l :: calls n m ++ ls) : l = .start o ∨ .start o ∈ ls := by
  rcases List.mem_append.mp h with h | h
  · rcases List.mem_cons.mp h with h | h
    · exact .inl h.symm
    · cases List.eq_of_mem_replicate h
  · exact .inr h

theorem oneAccountAtATime_of_startsIdle {s : State} {l : Step} (h : startsIdle s l = true)
    (hl : ∀ o, l = .start o → ∃ tok r, o = .http tok r ∧ r.OfNames) : OneAccountAtATime s l := by
  refine ⟨hl, fun o i ho => ?_⟩
  subst ho
  exact Config.idle_iff.mp h i

theorem keepsUsernames_of_test {s : State} {l : Step} (h : keepsUsernames s l = true) :
    KeepsUsernames s l := by
  constructor
  · intro i a tok b k u x hl hi hu hd hx hxl hn
    subst hl
    simp only [keepsUsernames, hi, Option.all_some, ServiceThread.checks?, hu, Bool.and_eq_true,
      Bool.or_eq_true, List.all_eq_true, decide_eq_true_eq] at h
    rcases h.1 with hlive | hfree
    · exact absurd hlive hd
    · rcases hfree x hx with hdead | hne | he
      · exact absurd hxl hdead
      · exact absurd hn hne
      · exact he
  · intro i c o id d k u x hl hc hi _ _ _ hx hxl hn
    subst hl
    cases c with
    | ok a =>
      simp only [keepsUsernames, hi, Option.all_some, ServiceThread.sets?, Bool.and_eq_true,
        List.all_eq_true, decide_eq_true_eq] at h
      rcases h.2 x hx with hdead | hne | he
      · exact absurd hxl hdead
      · exact absurd hn hne
      · exact he
    | fail => cases h
    | failAfter a => cases h

def signupAlice : Step := .start (.http 0 (.signup ⟨"alice@a", "alice", "secret"⟩))

def signupBob : Step := .start (.http 0 (.signup ⟨"bob@a", "bob", "secret"⟩))

/-- Somebody else asks for the username of Alice. -/
def signupSecondAlice : Step := .start (.http 0 (.signup ⟨"alice@b", "alice", "secret"⟩))

/-- Bob asks for a username that is free. -/
def freeNameBody : JsonObject := ⟨[("userId", .num 2), ("username", .str "robert")], by decide⟩

/-- Alice and Bob sign up, a second Alice is turned away, and Bob deletes his
account, signs up again and changes his username. -/
def usernamesInUse : List Step :=
  signupAlice :: calls 0 3 ++ (signupBob :: calls 1 3 ++ (signupSecondAlice :: calls 2 1 ++
  (.start (.http 2 (.deleteUser 2)) :: calls 3 4 ++ (signupBob :: calls 4 3 ++
  (.start (.http 2 (.updateProfile freeNameBody plainClient)) :: calls 5 3 ++ [])))))

theorem usernamesInUse_names {o : Origin} (h : .start o ∈ usernamesInUse) :
    ∃ tok r, o = .http tok r ∧ r.OfNames := by
  rcases start_mem_cons h with h | h
  · cases h; exact ⟨0, _, rfl, trivial⟩
  rcases start_mem_cons h with h | h
  · cases h; exact ⟨0, _, rfl, trivial⟩
  rcases start_mem_cons h with h | h
  · cases h; exact ⟨0, _, rfl, trivial⟩
  rcases start_mem_cons h with h | h
  · cases h; exact ⟨2, _, rfl, trivial⟩
  rcases start_mem_cons h with h | h
  · cases h; exact ⟨0, _, rfl, trivial⟩
  rcases start_mem_cons h with h | h
  · cases h
    refine ⟨2, _, rfl, fun id d hd => ?_⟩
    cases hd; rfl
  · cases h

theorem usernames_of_live_accounts_apart_bob : ∃ t,
    Reach (fun s l => OneAccountAtATime s l ∧ KeepsUsernames s l) State.empty t ∧
    t.shared.db.users.rows.map (fun u => (u.id, u.email, u.username)) =
      [(1, "alice@a", "alice"), (2, "bob@a", "robert")] ∧
    (∀ u ∈ t.shared.db.users.rows, u.deletedAt = none) ∧
    ∀ u ∈ t.shared.db.users.rows, ∀ v ∈ t.shared.db.users.rows,
      u.deletedAt = none → v.deletedAt = none → u.username = v.username → u = v := by
  have h : (service.runsIf .crashed (fun s l => startsIdle s l && keepsUsernames s l)
      usernamesInUse State.empty).any (fun t =>
        decide (t.shared.db.users.rows.map (fun u => (u.id, u.email, u.username)) =
          [(1, "alice@a", "alice"), (2, "bob@a", "robert")]) &&
        t.shared.db.users.rows.all (·.deletedAt = none)) = true := by decide +kernel
  obtain ⟨t, ht, hp⟩ := (Option.any_eq_true _ _).mp h
  obtain ⟨hrows, hlive⟩ := (Bool.and_eq_true _ _).mp hp
  have reach : Reach (fun s l => OneAccountAtATime s l ∧ KeepsUsernames s l) State.empty t := by
    refine Machine.reach_of_runsIf_of_mem (fun s l hl htest => ?_) ht
    obtain ⟨idle, keeps⟩ := (Bool.and_eq_true _ _).mp htest
    refine ⟨oneAccountAtATime_of_startsIdle idle fun o ho => ?_, keepsUsernames_of_test keeps⟩
    exact usernamesInUse_names (ho ▸ hl)
  exact ⟨t, reach, of_decide_eq_true hrows, by simpa using hlive,
    usernames_of_live_accounts_apart rfl rfl reach⟩

/-- Bob asks for the username of Alice. -/
def takeAliceBody : JsonObject := ⟨[("userId", .num 2), ("username", .str "alice")], by decide⟩

def signupsAndRename : List Step :=
  signupAlice :: calls 0 3 ++
  (signupBob :: calls 1 3 ++
  (.start (.http 2 (.updateProfile takeAliceBody plainClient)) :: calls 2 3 ++ []))

theorem signupsAndRename_names {o : Origin} (h : .start o ∈ signupsAndRename) :
    ∃ tok r, o = .http tok r ∧ r.OfNames := by
  rcases start_mem_cons h with h | h
  · cases h; exact ⟨0, _, rfl, trivial⟩
  rcases start_mem_cons h with h | h
  · cases h; exact ⟨0, _, rfl, trivial⟩
  rcases start_mem_cons h with h | h
  · cases h
    refine ⟨2, _, rfl, fun id d hd => ?_⟩
    cases hd; rfl
  · cases h

theorem profile_update_takes_username : ∃ t, Reach OneAccountAtATime State.empty t ∧
    ∃ u ∈ t.shared.db.users.rows, ∃ v ∈ t.shared.db.users.rows,
      u.deletedAt = none ∧ v.deletedAt = none ∧ u.username = v.username ∧ u ≠ v := by
  have h : (service.runsIf .crashed startsIdle signupsAndRename State.empty).any (fun t =>
      t.shared.db.users.rows.any fun u => t.shared.db.users.rows.any fun v =>
        decide (u.deletedAt = none ∧ v.deletedAt = none ∧ u.username = v.username ∧ u.id ≠ v.id)) =
      true := by decide +kernel
  obtain ⟨t, ht, hp⟩ := (Option.any_eq_true _ _).mp h
  simp only [List.any_eq_true, decide_eq_true_eq] at hp
  obtain ⟨u, hu, v, hv, hul, hvl, hn, hid⟩ := hp
  have reach : Reach OneAccountAtATime State.empty t :=
    Machine.reach_of_runsIf_of_mem (fun s l hl htest => oneAccountAtATime_of_startsIdle htest
      fun o ho => signupsAndRename_names (ho ▸ hl)) ht
  exact ⟨t, reach, u, hu, v, hv, hul, hvl, hn, fun he => hid (congrArg User.id he)⟩

end Pactic
