import Pactic.Protocol.Moves

/-! # Profile updates

The body of a profile update reaches the database client as it came, less its
`userId`. So what a request may change is up to the keys of its body: the frame
of the update is the frame of what the client makes of them. -/
namespace Pactic
open Keyed Resumption

/-- A row without the columns an update of the profile of `id` may change. -/
def User.unprofiled (id : Int) (u : User) : User :=
  if u.id = id then { u with email := "", username := "", updatedAt := 0 } else u

/-- The same rows but for the email, the username and the `updatedAt` of user `id`. -/
structure Db.SameBut (id : Int) (db db' : Db) : Prop where
  users : (db.users.rows.map (User.unprofiled id)).Perm (db'.users.rows.map (User.unprofiled id))
  wallets : db.wallets.rows.Perm db'.wallets.rows
  transactions : db.transactions.rows.Perm db'.transactions.rows
  walletRequests : db.walletRequests.rows.Perm db'.walletRequests.rows
  notifications : db.notifications.Perm db'.notifications
  loginLogs : db.loginLogs.Perm db'.loginLogs

/-- The row under its old id, with the columns the update sets. -/
def UserUpdate.columns (d : UserUpdate) (now : Nat) (u : User) : User :=
  { d.apply now u with id := u.id }

/-- What is left of the update of a row that has its columns: the row gets its
new id, and the nested writes follow. -/
def UserUpdate.rest (d : UserUpdate) (u : User) (db : Db) : Option Db :=
  (db.replaceUser u.id { u with id := d.id.getD u.id }).bind d.nested

/-- Some database with user `id` carries the update out. -/
def UserUpdate.Applies (d : UserUpdate) (id : Int) : Prop :=
  ∃ (db db' : Db) (u : User), db.users.find? id = some u ∧ d.columns db.now u = u ∧
    d.rest u db = some db'

/-- The data sets none of the other columns, and what it asks for besides, a new
id and nested writes, does nothing outside the profile either. -/
structure UserUpdate.Harmless (d : UserUpdate) (id : Int) : Prop where
  password : d.password = none
  createdAt : d.createdAt = none
  deletedAt : d.deletedAt = none
  rest : ∀ (db db' : Db) u, db.users.find? id = some u → d.columns db.now u = u →
    d.rest u db = some db' → Db.SameBut id db db'

section
variable {id : Int} {db db' db'' : Db} {u v : User} {d : UserUpdate}

theorem UserUpdate.columns_columns (d : UserUpdate) (now : Nat) (u : User) :
    d.columns now (d.columns now u) = d.columns now u := by
  obtain ⟨id, email, username, password, createdAt, updatedAt, deletedAt, nested⟩ := d
  cases email <;> cases username <;> cases password <;> cases createdAt <;> cases updatedAt <;>
    cases deletedAt <;> rfl

theorem Db.SameBut.refl (id : Int) (db : Db) : Db.SameBut id db db :=
  ⟨.refl _, .refl _, .refl _, .refl _, .refl _, .refl _⟩

theorem Db.SameBut.trans (h : Db.SameBut id db db') (h' : Db.SameBut id db' db'') :
    Db.SameBut id db db'' :=
  ⟨h.users.trans h'.users, h.wallets.trans h'.wallets, h.transactions.trans h'.transactions,
    h.walletRequests.trans h'.walletRequests, h.notifications.trans h'.notifications,
    h.loginLogs.trans h'.loginLogs⟩

theorem User.unprofiled_id (id : Int) (u : User) : (u.unprofiled id).id = u.id := by
  unfold unprofiled
  split <;> rfl

@[simp] theorem User.unprofiled_password (id : Int) (u : User) :
    (u.unprofiled id).password = u.password := by
  unfold unprofiled
  split <;> rfl

@[simp] theorem User.unprofiled_createdAt (id : Int) (u : User) :
    (u.unprofiled id).createdAt = u.createdAt := by
  unfold unprofiled
  split <;> rfl

@[simp] theorem User.unprofiled_deletedAt (id : Int) (u : User) :
    (u.unprofiled id).deletedAt = u.deletedAt := by
  unfold unprofiled
  split <;> rfl

/-- Setting the profile columns stays inside the frame. -/
theorem Db.SameBut.columns (hu : db.users.find? id = some u) (now : Nat)
    (hp : d.password = none) (hc : d.createdAt = none) (hd : d.deletedAt = none) :
    Db.SameBut id db { db with users := db.users.put (d.columns now u) } := by
  obtain ⟨hmem, hid⟩ := Table.find?_eq_some.mp hu
  have same : ∀ x ∈ db.users.rows, x.id = (d.columns now u).id →
      x.unprofiled id = (d.columns now u).unprofiled id := by
    intro x hx he
    have hxu : x = u := Table.eq_of_key _ hx hmem he
    subst hxu
    simp [User.unprofiled, UserUpdate.columns, UserUpdate.apply, hid, hp, hc, hd]
  exact ⟨.of_eq (Table.map_put _ _ _ same).symm, .refl _, .refl _, .refl _, .refl _, .refl _⟩

/-- A user who is in the frame twice is the same twice, up to the profile. -/
theorem Db.SameBut.unprofiled_eq {db₁ db₂ : Db} (h₁ : Db.SameBut id db₁ db) (h₂ : Db.SameBut id db₂ db)
    (hu : u ∈ db₁.users.rows) (hv : v ∈ db₂.users.rows) (hid : u.id = v.id) :
    u.unprofiled id = v.unprofiled id := by
  obtain ⟨x, hx, hxu⟩ := List.mem_map.mp (h₁.users.mem_iff.mp (List.mem_map_of_mem hu))
  obtain ⟨y, hy, hyv⟩ := List.mem_map.mp (h₂.users.mem_iff.mp (List.mem_map_of_mem hv))
  have key : x.id = y.id := by
    rw [← User.unprofiled_id id x, hxu, ← User.unprofiled_id id y, hyv, User.unprofiled_id,
      User.unprofiled_id, hid]
  rw [← hxu, ← hyv, Table.eq_of_key _ hx hy key]

/-- An update does not depend on the columns it overwrites. -/
theorem Db.replaceUser_put (w : User) (hv : v.id = id) :
    ({ db with users := db.users.put v } : Db).replaceUser id w = db.replaceUser id w := by
  have taken : ({ db with users := db.users.put v } : Db).emailTaken { w with id := id } =
      db.emailTaken { w with id := id } := by
    simp only [emailTaken, Table.put, List.any_map]
    refine List.any_congr rfl fun x => ?_
    simp only [Function.comp_apply]
    split
    · next hx => simp [hv, hx]
    · rfl
  unfold replaceUser
  rw [taken]
  split
  · rfl
  split
  · next hw => rw [Table.put_put _ (hv.trans hw.symm)]
  · have same := Table.insert?_put_erase db.users v w
    rw [hv] at same
    cases h₁ : (db.users.put v).insert? w <;> cases h₂ : db.users.insert? w <;>
      simp only [h₁, h₂, Option.map_some, Option.map_none, Option.some.injEq, reduceCtorEq] at same ⊢
    rw [same]

/-- An update is its columns and then the rest. -/
theorem UserUpdate.rest_columns (hu : db.users.find? id = some u) :
    d.rest (d.columns db.now u) { db with users := db.users.put (d.columns db.now u) } =
      (db.replaceUser id (d.apply db.now u)).bind d.nested := by
  have hid : (d.columns db.now u).id = id := (Table.find?_eq_some.mp hu).2
  have row : ({ d.columns db.now u with id := d.id.getD u.id } : User) = d.apply db.now u := rfl
  have key : (d.columns db.now u).id = u.id := rfl
  unfold rest
  rw [key, row, ← key, hid, Db.replaceUser_put _ hid]

theorem UserUpdate.Applies.of_update (hu : db.users.find? id = some u)
    (hdb : (db.replaceUser id (d.apply db.now u)).bind d.nested = some db') : d.Applies id := by
  refine ⟨{ db with users := db.users.put (d.columns db.now u) }, db', d.columns db.now u, ?_,
    d.columns_columns _ _, (rest_columns hu).trans hdb⟩
  have hid : (d.columns db.now u).id = id := (Table.find?_eq_some.mp hu).2
  rw [Table.find?_put, if_pos hid, hu]
  rfl

/-- The update of a user whose row has its columns is what is left of it. -/
theorem UserUpdate.update_of_rest (hu : db.users.find? id = some u) (hc : d.columns db.now u = u)
    (hr : d.rest u db = some db') :
    (db.replaceUser id (d.apply db.now u)).bind d.nested = some db' := by
  obtain ⟨-, hid⟩ := Table.find?_eq_some.mp hu
  have row : d.apply db.now u = { d.columns db.now u with id := d.id.getD u.id } := rfl
  rw [row, hc, ← hid]
  exact hr

/-- Harmless data, where it is carried out, stays inside the frame. -/
theorem UserUpdate.Harmless.update (h : d.Harmless id) (hu : db.users.find? id = some u)
    (hdb : (db.replaceUser id (d.apply db.now u)).bind d.nested = some db') :
    Db.SameBut id db db' := by
  have set := Db.SameBut.columns hu db.now h.password h.createdAt h.deletedAt
  have hid : (d.columns db.now u).id = id := (Table.find?_eq_some.mp hu).2
  refine set.trans (h.rest _ db' (d.columns db.now u) ?_ (d.columns_columns _ _)
    ((rest_columns hu).trans hdb))
  rw [Table.find?_put, if_pos hid, hu]
  rfl

end

/-- An update fails and leaves everything as it is, or it is carried out. -/
theorem exec_update {c : Choice} {i : Nat} {o : Origin} {sh sh' : Shared} {id : Int}
    {data : Option UserUpdate} {r} (h : exec c i o (.prisma (.userUpdate id data)) sh = some (sh', r)) :
    (sh' = sh ∧ ∃ e, r = .error e) ∨ ∃ d u db, data = some d ∧ sh.db.users.find? id = some u ∧
      (sh.db.replaceUser id (d.apply sh.db.now u)).bind d.nested = some db ∧
      sh' = { sh with db := db, versions := sh.versions ++ db.wallets.rows } ∧
      ((∃ a, c = .ok a) ∧ r = .ok (d.apply sh.db.now u) ∨
        (∃ a, c = .failAfter a) ∧ r = .error .unavailable) := by
  have run {a r₀} (hrun : (PrismaOp.userUpdate id data).run a i o sh = some (sh', r₀)) :
      (sh' = sh ∧ ∃ e, r₀ = .error e) ∨ ∃ d u db, data = some d ∧ sh.db.users.find? id = some u ∧
        (sh.db.replaceUser id (d.apply sh.db.now u)).bind d.nested = some db ∧
        sh' = { sh with db := db, versions := sh.versions ++ db.wallets.rows } ∧
        r₀ = .ok (d.apply sh.db.now u) := by
    cases data with
    | none =>
      cases hrun
      exact .inl ⟨rfl, _, rfl⟩
    | some d =>
      simp only [PrismaOp.run] at hrun
      split at hrun
      · cases hrun
        exact .inl ⟨rfl, _, rfl⟩
      · next u hu =>
        split at hrun
        · next db hdb =>
          cases hrun
          exact .inr ⟨d, u, db, rfl, hu, hdb, rfl, rfl⟩
        · cases hrun
          exact .inl ⟨rfl, _, rfl⟩
  cases c with
  | ok a =>
    rcases run h with refused | ⟨d, u, db, hd, hu, hdb, hsh, hr⟩
    · exact .inl refused
    · exact .inr ⟨d, u, db, hd, hu, hdb, hsh, .inl ⟨⟨a, rfl⟩, hr⟩⟩
  | fail =>
    cases h
    exact .inl ⟨rfl, _, rfl⟩
  | failAfter a =>
    obtain ⟨⟨sh₁, r₀⟩, hrun, he⟩ := Option.map_eq_some_iff.mp h
    cases he
    rcases run hrun with ⟨hsh, -⟩ | ⟨d, u, db, hd, hu, hdb, hsh, -⟩
    · exact .inl ⟨hsh, _, rfl⟩
    · exact .inr ⟨d, u, db, hd, hu, hdb, hsh, .inr ⟨⟨a, rfl⟩, rfl⟩⟩

/-! ## The request -/

/-- What the thread of a profile update may call; other threads are free. -/
def Origin.AllowsProfile : Origin → Op → Prop
  | http tok (.updateProfile body client), .prisma (.userUpdate id data) =>
    id = tok ∧ UsersController.bodyUserId body = some tok ∧ data = client tok (body.erase "userId")
  | http _ (.updateProfile _ _), .redis _ => True
  | http _ (.updateProfile _ _), _ => False
  | _, _ => True

def profile (o : Origin) : Monitor Op Op.Res Err Unit := ⟨fun _ => o.AllowsProfile, fun _ _ _ => ()⟩

theorem only_trivial {P : Op → Prop} (hP : ∀ op, P op) {α : Type} (c : Proc α) : c.Only P := by
  induction c with
  | ret _ => trivial
  | call op k ih => exact ⟨hP op, ih⟩

theorem updateProfile_only (client : Client) (body : JsonObject) (tok : Int) :
    (UsersController.updateProfile client body tok).Only
      (Origin.http tok (.updateProfile body client)).AllowsProfile := by
  unfold UsersController.updateProfile
  split
  · trivial
  · next userId hb =>
    unfold validateTokenUser
    split
    · trivial
    · next hid =>
      obtain rfl := not_not.mp hid
      refine .bind trivial fun _ => .bind (.bind (.perform ⟨rfl, hb, rfl⟩) fun u => ?_) fun _ => trivial
      exact .bind (.perform trivial) fun _ => .bind (.perform trivial) fun _ => trivial

theorem profile_keeps (o : Origin) : (profile o).wp o.program (fun _ _ => True) () := by
  have only : o.program.Only o.AllowsProfile := by
    cases o with
    | delivery m => exact only_trivial (fun _ => trivial) _
    | http tok r => cases r with
      | updateProfile body client => exact updateProfile_only client body tok
      | _ => exact only_trivial (fun _ => trivial) _
  exact Monitor.wp_mono _ (Monitor.wp_of_only _ (fun op h => ⟨h, fun _ => rfl⟩) only) fun _ _ _ => trivial

/-- No call of such a request, in any run, changes more than its user's profile. -/
def Framed (client : Client) (body : JsonObject) (userId : Int) : Prop :=
  ∀ (s t u : State) (i : Nat) (c : Choice) (prog : Proc Reply), s.threads = [] →
    Reach (fun _ _ => True) s t →
    t.threads[i]? = some ⟨.http userId (.updateProfile body client), prog⟩ →
    step t (.run i c) = some u → Db.SameBut userId t.shared.db u.shared.db

section
variable {client : Client} {body : JsonObject} {userId : Int} {d : UserUpdate} {db db' : Db} {u : User}

/-- One call of a request whose data is harmless. -/
theorem UserUpdate.Harmless.call {sh sh' : Shared} {i : Nat} {c : Choice} {op : Op} {r}
    (h : ∀ d, client userId (body.erase "userId") = some d → d.Applies userId →
      d.Harmless userId)
    (ha : (Origin.http userId (.updateProfile body client)).AllowsProfile op)
    (he : exec c i (.http userId (.updateProfile body client)) op sh = some (sh', r)) :
    Db.SameBut userId sh.db sh'.db := by
  have same {sh₁ : Shared} (hdb : sh₁.db = sh.db) : Db.SameBut userId sh.db sh₁.db :=
    hdb ▸ .refl _ _
  cases op with
  | redis op =>
    rcases exec_cases he with ⟨rfl, -⟩ | ⟨a, r₀, hrun, -⟩
    · exact same rfl
    · cases hrun; exact same rfl
  | prisma op =>
    cases op with
    | userUpdate id data =>
      obtain ⟨rfl, -, rfl⟩ := ha
      rcases exec_update he with ⟨rfl, -⟩ | ⟨d, u, db, hd, hu, hdb, rfl, -⟩
      · exact same rfl
      · exact (h d hd (.of_update hu hdb)).update hu hdb
    | _ => exact ha.elim
  | _ => exact ha.elim

/-- The request makes its update first. -/
theorem updateProfile_call {data : Option UserUpdate}
    (hb : UsersController.bodyUserId body = some userId)
    (hd : client userId (body.erase "userId") = data) :
    ∃ k, UsersController.updateProfile client body userId =
      .call (.prisma (.userUpdate userId data)) k := by
  subst hd
  unfold UsersController.updateProfile
  rw [hb]
  simp only [validateTokenUser, ne_eq, not_true_eq_false, if_false]
  exact ⟨_, rfl⟩

/-- An update that is carried out on some database, seen as a run. -/
theorem Framed.update (h : Framed client body userId)
    (hb : UsersController.bodyUserId body = some userId)
    (hd : client userId (body.erase "userId") = some d) (hu : db.users.find? userId = some u)
    (hdb : (db.replaceUser userId (d.apply db.now u)).bind d.nested = some db') :
    Db.SameBut userId db db' := by
  let s : State := { State.empty with shared.db := db }
  let o := Origin.http userId (.updateProfile body client)
  let t : State := { s with threads := [⟨o, o.program⟩] }
  have start : step s (.start o) = some t := rfl
  have reach : Reach (fun _ _ => True) s t := Machine.Reach.refl.tail trivial start
  obtain ⟨k, hk⟩ := updateProfile_call hb hd
  have program : o.program = .call (.prisma (.userUpdate userId (some d))) k := hk
  have prog : t.threads[0]? = some ⟨o, .call (.prisma (.userUpdate userId (some d))) k⟩ := by
    rw [← program]; rfl
  have run : exec (.ok {}) 0 o (.prisma (.userUpdate userId (some d))) t.shared =
      some ({ t.shared with db := db', versions := t.shared.versions ++ db'.wallets.rows },
        .ok (d.apply db.now u)) := by
    simp only [exec, Op.run, PrismaOp.run]
    rw [show t.shared.db.users.find? userId = some u from hu]
    dsimp only
    rw [show (t.shared.db.replaceUser userId (d.apply t.shared.db.now u)).bind d.nested = some db'
      from hdb]
  have last : step t (.run 0 (.ok {})) = some
      ⟨{ t.shared with db := db', versions := t.shared.versions ++ db'.wallets.rows },
        t.threads.set 0 ⟨o, k (.ok (d.apply db.now u))⟩⟩ :=
    (Machine.step_run prog).mpr ⟨_, _, run, rfl⟩
  exact h s t _ 0 _ _ rfl reach prog last

/-- What an update overwrites is lost: two users who differ in it only end alike. -/
theorem Framed.forgets {v : User} (h : Framed client body userId)
    (hb : UsersController.bodyUserId body = some userId)
    (hd : client userId (body.erase "userId") = some d) (hu : db.users.find? userId = some u)
    (hdb : (db.replaceUser userId (d.apply db.now u)).bind d.nested = some db')
    (hid : v.id = u.id) (hv : d.apply db.now v = d.apply db.now u) :
    u.unprofiled userId = v.unprofiled userId := by
  obtain ⟨hmem, hkey⟩ := Table.find?_eq_some.mp hu
  have hmem' : v ∈ (db.users.put v).rows := Table.mem_put.mpr (.inr ⟨rfl, u, hmem, hid.symm⟩)
  have hv' : (db.users.put v).find? userId = some v :=
    Table.find?_eq_some.mpr ⟨hmem', hid.trans hkey⟩
  have hdb' : (({ db with users := db.users.put v } : Db).replaceUser userId
      (d.apply db.now v)).bind d.nested = some db' := by
    rw [Db.replaceUser_put _ (hid.trans hkey), hv]; exact hdb
  have h' : Db.SameBut userId { db with users := db.users.put v } db' := h.update hb hd hv' hdb'
  exact (h.update hb hd hu hdb).unprofiled_eq h' hmem hmem' hid.symm

/-- Data that is carried out and kept to the profile sets none of the other columns. -/
theorem Framed.columns (h : Framed client body userId)
    (hb : UsersController.bodyUserId body = some userId)
    (hd : client userId (body.erase "userId") = some d) (ha : d.Applies userId) :
    d.password = none ∧ d.createdAt = none ∧ d.deletedAt = none := by
  obtain ⟨db, db', u, hu, hc, hr⟩ := ha
  have hdb := d.update_of_rest hu hc hr
  have lost (v : User) (hid : v.id = u.id) (hv : d.apply db.now v = d.apply db.now u) :
      u.unprofiled userId = v.unprofiled userId := h.forgets hb hd hu hdb hid hv
  refine ⟨?_, ?_, ?_⟩
  · cases hp : d.password with
    | none => rfl
    | some pw =>
      have same := congrArg User.password (lost { u with password := u.password ++ "x" } rfl
        (by simp [UserUpdate.apply, hp]))
      have hlen := congrArg String.length same
      simp at hlen
  · cases hc : d.createdAt with
    | none => rfl
    | some at₀ =>
      have same := congrArg User.createdAt (lost { u with createdAt := u.createdAt + 1 } rfl
        (by simp [UserUpdate.apply, hc]))
      simp at same
  · cases hdel : d.deletedAt with
    | none => rfl
    | some at₀ =>
      have same := congrArg User.deletedAt (lost
        { u with deletedAt := some (u.deletedAt.getD 0 + 1) } rfl
        (by simp [UserUpdate.apply, hdel]))
      cases hu : u.deletedAt <;> simp [hu] at same

end

/-- The requests with this body keep to the profile exactly if what the client
makes of the body is refused by every database or harmless. -/
theorem profile_update_framed_iff (client : Client) (body : JsonObject) (userId : Int)
    (hb : UsersController.bodyUserId body = some userId) :
    Framed client body userId ↔
      ∀ d, client userId (body.erase "userId") = some d → d.Applies userId →
        d.Harmless userId := by
  constructor
  · intro h d hd ha
    obtain ⟨hp, hcr, hdel⟩ := h.columns hb hd ha
    refine ⟨hp, hcr, hdel, fun db db' u hu hc hr => ?_⟩
    exact h.update hb hd hu (d.update_of_rest hu hc hr)
  · intro h s t u i c prog hs reach hi hstep
    have stable : Machine.Stable service profile (fun _ => ()) (fun _ _ => True) (fun _ _ => True)
        fun _ _ => True :=
      ⟨fun _ _ _ _ _ _ _ _ _ _ _ => trivial, fun _ _ _ _ _ _ _ _ _ _ _ _ _ _ _ _ _ => trivial,
        fun _ _ _ _ _ _ _ _ => trivial, fun _ _ _ _ _ _ => trivial⟩
    obtain ⟨g, ht, -⟩ := stable.invariant (fun _ o _ _ _ => profile_keeps o) (.of_nil hs) trivial reach
    cases Machine.step_fires hstep with
    | run hi' he =>
      rw [hi] at hi'; cases hi'
      obtain ⟨p, -, allowed, -⟩ := ht.called hi
      exact UserUpdate.Harmless.call h allowed he

/-- A client on bodies of plain columns. -/
def plainClient : Client := fun _ data =>
  data.rows.foldlM (fun d field => match field with
    | ("username", .str name) => some { d with username := some name }
    | ("email", .str email) => some { d with email := some email }
    | ("password", .str password) => some { d with password := some password }
    | ("deletedAt", .null) => some { d with deletedAt := some none }
    | _ => none) {}

def renameBody : JsonObject := ⟨[("userId", .num 1), ("username", .str "bob")], by decide⟩

theorem profile_update_framed_rename : Framed plainClient renameBody 1 := by
  refine (profile_update_framed_iff plainClient renameBody 1 rfl).mpr fun d hd _ => ?_
  cases hd
  refine ⟨rfl, rfl, rfl, fun db db' u hu hc hr => ?_⟩
  have same := Db.SameBut.columns hu db.now
    (rfl : ({ username := some "bob" } : UserUpdate).password = none) rfl rfl
  simp only [UserUpdate.rest, Db.replaceUser, Option.getD_none, if_true] at hr
  split at hr
  · cases hr
  · cases hr
    rw [hc] at same
    exact same

/-- A body with a password too: the stored hash is replaced by plain text. -/
def passwordBody : JsonObject :=
  ⟨[("userId", .num 1), ("username", .str "alice"), ("password", .str "stolen")], by decide⟩

theorem profile_update_sets_password : ¬ Framed plainClient passwordBody 1 := by
  intro h
  let alice : User := ⟨1, "alice@a", "alice", "$2b$10$", 0, 0, none⟩
  let before : Db := { State.empty.shared.db with users := ⟨[alice], by decide⟩ }
  let after : User := { alice with password := "stolen" }
  have same : Db.SameBut 1 before { before with users := ⟨[after], by decide⟩ } :=
    h.update rfl rfl rfl rfl
  have lost : alice.unprofiled 1 = after.unprofiled 1 :=
    same.unprofiled_eq (.refl _ _) (List.mem_singleton_self alice) (List.mem_singleton_self after) rfl
  have hashes : "$2b$10$" = "stolen" := congrArg User.password lost
  exact absurd hashes (by decide)

end Pactic
