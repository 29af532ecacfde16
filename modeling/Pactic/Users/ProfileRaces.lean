import Pactic.Lib.Copies
import Pactic.Users.Profile
import Pactic.Users.Signup

/-! # Cached profiles under races

An update writes the row, deletes the entry and sets it, a lookup reads the row
and sets the entry, each in calls of its own. The entry ends up current if
whoever sets it last has seen the row last. -/
namespace Pactic
open Keyed Resumption

def User.names (u : User) : String × String := (u.email, u.username)

def Profile.names (p : Profile) : String × String := (p.email, p.username)

/-- The email and the username the database has of a user. -/
def Db.namesOf (db : Db) (u : Int) : Option (String × String) := (db.users.find? u).map User.names

/-- The entry of a user is absent or carries what the database has. -/
def Shared.ProfileCurrent (sh : Shared) (u : Int) : Prop :=
  ∀ p, sh.redis (.userProfile u) = some p → sh.db.namesOf u = some p.names

/-- The data of an update of user `id` gives it no other id, and writes through
relations leave the users alone. -/
def UserUpdate.Plain (d : UserUpdate) (id : Int) : Prop :=
  d.id.getD id = id ∧ ∀ db db', d.nested db = some db' → db'.users = db.users

/-- Profile lookups and updates. -/
def ProfileRun (_ : State) (l : Step) : Prop :=
  ∀ o, l = .start o → ∃ tok, (∃ v, o = .http tok (.getProfile v)) ∨
    ∃ body client, o = .http tok (.updateProfile body client)

/-- The data of the updates is plain. -/
def PlainUpdates (l : Step) : Prop :=
  ∀ tok body client, l = .start (.http tok (.updateProfile body client)) →
    ∀ id d, client id (body.erase "userId") = some d → d.Plain id

/-- Thread `i` is at the `del` or the `set` of the entry. -/
def State.SetsNext (s : State) (u : Int) (i : Nat) : Prop :=
  s.calling i = some (.redis (.del (.userProfile u))) ∨
    ∃ p, s.calling i = some (.redis (.set (.userProfile u) p))

/-- How many changes of the row thread `i` has seen once it has made this call. -/
def profileHeld (u : Int) (k : Copies) (i : Nat) : Op → Option Nat
  | .prisma (.userFindById v) | .prisma (.userUpdate v _) => if v = u then some k.changes else k.held i
  | _ => k.held i

/-- How many of them the entry has then. -/
def profileKept (u : Int) (k : Copies) (i : Nat) : Choice → Op → Option Nat
  | .fail, _ => k.kept
  | _, .redis (.set (.userProfile v) _) => if v = u then k.held i else k.kept
  | _, _ => k.kept

/-- The copies of the names of a user: the entry and what the threads have seen. -/
def profileCopies (u : Int) (k : Copies) (s : State) (l : Step) (t : State) : Copies :=
  let noted : Copies := match l with
    | .run i c => match s.calling i with
      | some op => if t.shared.db.namesOf u = s.shared.db.namesOf u
          then k.copy i (profileHeld u k i op) (profileKept u k i c op) else k.change i
      | none => k
    | _ => k
  noted.look (t.shared.redis (.userProfile u)).isSome

/-- Thread `i` has seen the last change of the row and is still to set the entry. -/
def State.Leads (s : State) (u : Int) (k : Copies) (i : Nat) : Prop := k.Fresh i ∧ s.SetsNext u i

/-- The entry is set by a call that has seen the last change of the row, or before
one that has. Such a call dies or fails only if the entry has that change or is
absent, or before another such call. No answer to a change is lost while there is
an entry. -/
structure SeenLast (u : Int) (k : Copies) (s : State) (l : Step) : Prop where
  plain : PlainUpdates l
  set : ∀ i c p, l = .run i c → c ≠ .fail → s.calling i = some (.redis (.set (.userProfile u) p)) →
    k.Fresh i ∨ ∃ j, j ≠ i ∧ s.Leads u k j
  stopped : ∀ i, l = .kill i ∨ l = .run i .fail → s.Leads u k i →
    k.Settled ∨ ∃ j, j ≠ i ∧ s.Leads u k j
  lost : ∀ i a t, l = .run i (.failAfter a) → step s l = some t →
    t.shared.db.namesOf u ≠ s.shared.db.namesOf u → k.kept = none

/-! ## The programs -/

/-- What a thread has still to do to the entry of `u`. -/
inductive Turn where
  | free
  | updated (names : String × String)
  | setting (names : String × String)
  deriving DecidableEq

def Turn.next (u : Int) : Turn → (o : Op) → Except Err o.Res → Turn
  | free, .prisma (.userUpdate id _), .ok x => if id = u then .updated x.names else .free
  | free, .prisma (.userFindById id), .ok (some x) => if id = u then .setting x.names else .free
  | updated names, .redis (.del _), .ok _ => .setting names
  | _, _, _ => .free

def Turn.Allows (u : Int) : Turn → Op → Prop
  | free, .redis (.get _) => True
  | free, .redis (.set (.userProfile k) _) | free, .redis (.del (.userProfile k)) => k ≠ u
  | free, .prisma (.userFindById _) => True
  | free, .prisma (.userUpdate id data) => ∀ d, data = some d → d.Plain id
  | free, _ => False
  | updated _, op => op = .redis (.del (.userProfile u))
  | setting names, op => ∃ p : Profile, op = .redis (.set (.userProfile u) p) ∧ p.names = names

def turns (u : Int) (_ : Origin) : Monitor Op Op.Res Err Turn := ⟨Turn.Allows u, Turn.next u⟩

/-- Nothing is left to do at the end. -/
def Freed (_ : Origin) (_ : Except Err Reply) (p : Turn) : Prop := p = .free

section
variable {u : Int} {o : Origin} {α β : Type}

/-- A program that leaves the thread free, however it ends. -/
def Frees (u : Int) (o : Origin) (c : Proc α) : Prop :=
  (turns u o).wp c (fun _ p => p = .free) .free

theorem frees_bind {c : Proc α} {f : α → Proc β} (hc : Frees u o c) (hf : ∀ a, Frees u o (f a)) :
    Frees u o (c >>= f) := by
  refine (Monitor.wp_bind _ _ _ _ _).mpr (Monitor.wp_mono _ hc fun r p hp => ?_)
  cases r with
  | ok a =>
    subst hp
    exact hf a
  | error _ => exact hp

theorem validateTokenUser_frees (v tok : Int) : Frees u o (validateTokenUser v tok) := by
  unfold validateTokenUser
  split
  · exact rfl
  · exact rfl

/-- The entry is set by a thread whose turn it is, if it is that of `u`. -/
theorem set_frees {v : Int} {p : Profile} {f : Unit → Proc α} (hf : Frees u o (f ())) :
    (turns u o).wp (Redis.set (.userProfile v) p >>= f) (fun _ q => q = .free)
      (if v = u then .setting p.names else .free) := by
  split
  · next hv =>
    subst hv
    exact (Monitor.wp_perform_bind _ _ _ _ _).mpr ⟨⟨p, rfl, rfl⟩, fun _ => hf, fun _ => rfl⟩
  · next hv => exact (Monitor.wp_perform_bind _ _ _ _ _).mpr ⟨hv, fun _ => hf, fun _ => rfl⟩

theorem getProfile_frees (v : Int) : Frees u o (UsersService.getProfile v) := by
  refine (Monitor.wp_perform_bind _ _ _ _ _).mpr ⟨trivial, fun cached => ?_, fun _ => rfl⟩
  cases cached with
  | some _ => exact rfl
  | none =>
    refine (Monitor.wp_perform_bind _ _ _ _ _).mpr ⟨trivial, fun found => ?_, fun _ => rfl⟩
    cases found with
    | none => exact rfl
    | some x => exact set_frees (p := ⟨x.id, x.email, x.username, x.createdAt, none⟩) rfl

theorem updateProfile_frees {client : Client} {v : Int} {dto : JsonObject}
    (hd : ∀ d, client v dto = some d → d.Plain v) :
    Frees u o (UsersService.updateProfile client v dto) := by
  refine (Monitor.wp_perform_bind _ _ _ _ _).mpr ⟨hd, fun x => ?_, fun _ => rfl⟩
  let p : Profile := ⟨x.id, x.email, x.username, x.createdAt, some x.updatedAt⟩
  show (turns u o).wp (Redis.del (.userProfile v) >>= fun _ => Redis.set (.userProfile v) p >>= _) _
    (if v = u then .updated p.names else .free)
  have last : (turns u o).wp (Redis.set (.userProfile v) p >>= fun _ => pure p)
      (fun _ q => q = .free) (if v = u then .setting p.names else .free) := set_frees rfl
  split
  · next hv =>
    rw [if_pos hv] at last
    subst hv
    exact (Monitor.wp_perform_bind _ _ _ _ _).mpr ⟨rfl, fun _ => last, fun _ => rfl⟩
  · next hv =>
    rw [if_neg hv] at last
    exact (Monitor.wp_perform_bind _ _ _ _ _).mpr ⟨hv, fun _ => last, fun _ => rfl⟩

theorem service_frees {C : State → Step → Prop} (hC : ∀ s l, C s l → ProfileRun s l ∧ PlainUpdates l)
    (u : Int) : Machine.Obeys service (turns u) Freed (fun _ => .free) C := by
  intro s o sh hc _
  obtain ⟨run, plain⟩ := hC _ _ hc
  obtain ⟨tok, ⟨v, rfl⟩ | ⟨body, client, rfl⟩⟩ := run o rfl
  · exact frees_bind (validateTokenUser_frees _ _) fun _ => frees_bind (getProfile_frees _) fun _ => rfl
  · show Frees u _ (UsersController.updateProfile client body tok)
    unfold UsersController.updateProfile
    split
    · exact rfl
    · exact frees_bind (validateTokenUser_frees _ _) fun _ =>
        frees_bind (updateProfile_frees (plain tok body client rfl _)) fun _ => rfl

end
/-! ## Calls and the names of a user -/

section
variable {u : Int} {k : Copies} {s t : State} {l : Step} {g g' : Machine.Ghost Origin Turn} {i : Nat}
  {o : Origin} {names : String × String} {N N' : Nat → Option (String × String)}
  {sh sh' : Shared} {c : Choice} {op : Op}

theorem namesOf_congr {db db' : Db} (h : db'.users = db.users) : db'.namesOf u = db.namesOf u := by
  rw [Db.namesOf, Db.namesOf, h]

/-- Writing the entry of another user. -/
theorem cached_of_other {v : Int} {redis : (k : CacheKey) → Option k.Value} (h : v ≠ u) :
    (∀ p, ((RedisOp.set (.userProfile v) p).run redis).1 (.userProfile u) = redis (.userProfile u)) ∧
      ((RedisOp.del (.userProfile v)).run redis).1 (.userProfile u) = redis (.userProfile u) := by
  have hne : CacheKey.userProfile u ≠ .userProfile v := fun he => h (CacheKey.userProfile.inj he).symm
  constructor
  · intro p
    simp only [RedisOp.run, Function.update_of_ne hne]
  · simp only [RedisOp.run, Function.update_of_ne hne]

/-- What a free thread calls leaves the entry alone, and the row too but for an update. -/
theorem exec_free {r} (h : Turn.Allows u .free op) (he : exec c i o op sh = some (sh', r)) :
    sh'.redis (.userProfile u) = sh.redis (.userProfile u) ∧
    (sh'.db.users = sh.db.users ∨ ∃ id data, op = .prisma (.userUpdate id data)) := by
  constructor
  · rcases exec_redis he with hr | ⟨op', rfl, -, hr⟩
    · rw [hr]
    · rw [hr]
      cases op' with
      | get key => rfl
      | set key v =>
        cases key with
        | userProfile w => exact (cached_of_other h).1 v
        | _ => exact h.elim
      | del key =>
        cases key with
        | userProfile w => exact (cached_of_other h).2
        | _ => exact h.elim
  · cases op with
    | redis op => exact .inl (exec_spares rfl he)
    | prisma op =>
      cases op with
      | userUpdate id data => exact .inr ⟨id, data, rfl⟩
      | userFindById id => exact .inl (exec_spares rfl he)
      | _ => exact h.elim
    | _ => exact h.elim

/-- An update with plain data puts a row in the place of the one it has found. -/
theorem exec_plain_update {id : Int} {data : Option UserUpdate} {r}
    (hd : ∀ d, data = some d → d.Plain id)
    (h : exec c i o (.prisma (.userUpdate id data)) sh = some (sh', r)) :
    sh' = sh ∧ (∃ e, r = .error e) ∨ ∃ x : User, x.id = id ∧
      sh'.db.namesOf u = (if id = u then some x.names else sh.db.namesOf u) ∧
      (r = .ok x ∨ (∃ a, c = .failAfter a) ∧ ∃ e, r = .error e) := by
  rcases exec_update h with ⟨rfl, he⟩ | ⟨d, x, db, rfl, hx, hdb, rfl, hr⟩
  · exact .inl ⟨rfl, he⟩
  obtain ⟨hid, hnested⟩ := hd d rfl
  have key : (d.apply sh.db.now x).id = id := by
    simp only [UserUpdate.apply, (Table.find?_eq_some.mp hx).2, hid]
  obtain ⟨db', hput, hdb⟩ := Option.bind_eq_some_iff.mp hdb
  have users : db.users = sh.db.users.put (d.apply sh.db.now x) := by
    rw [hnested _ _ hdb]
    unfold Db.replaceUser at hput
    rw [if_pos key] at hput
    split at hput
    · cases hput
    · cases hput; rfl
  refine .inr ⟨_, key, ?_, hr.imp And.right fun h => ⟨h.1, _, h.2⟩⟩
  show (db.users.find? u).map User.names = _
  rw [users, Table.find?_put, key]
  split
  · next hu => rw [← hu, hx]; rfl
  · rfl

/-- A row that is found has the names of its user. -/
theorem exec_found {x : User} (h : exec c i o (.prisma (.userFindById u)) sh = some (sh', .ok (some x))) :
    sh'.db.namesOf u = some x.names := by
  cases c with
  | fail => cases h
  | failAfter a => cases h
  | ok a =>
    simp only [exec, Op.run, PrismaOp.run, Option.some.injEq, Prod.mk.injEq, Except.ok.injEq] at h
    obtain ⟨rfl, hx⟩ := h
    rw [Db.namesOf, hx]
    rfl

/-! ## What is logged is so -/

/-- What a thread is to set are the names after some change it has seen; `N n`
are the names after `n` changes. -/
def Turn.Has (N : Nat → Option (String × String)) (x : Option Nat) : Turn → Prop
  | free => True
  | updated names | setting names => ∃ n, x = some n ∧ N n = some names

/-- The row, the entry and the threads have the changes that the log says they have. -/
structure NamesTold (u : Int) (N : Nat → Option (String × String)) (k : Copies) (sh : Shared)
    (g : Machine.Ghost Origin Turn) : Prop where
  row : sh.db.namesOf u = N k.changes
  entry : ∀ {p}, sh.redis (.userProfile u) = some p → ∃ n ≤ k.changes, k.kept = some n ∧ N n = some p.names
  bound : ∀ {i n}, k.held i = some n → n ≤ k.changes
  held : ∀ {i q}, g i = some q → q.2.Has N (k.held i)

theorem NamesTold.look (h : NamesTold u N k sh g) (hn : sh'.db.namesOf u = sh.db.namesOf u)
    (hc : ∀ p, sh'.redis (.userProfile u) = some p → sh.redis (.userProfile u) = some p) :
    NamesTold u N (k.look (sh'.redis (.userProfile u)).isSome) sh' g where
  row := hn.trans h.row
  entry {p} hp := by
    rw [Copies.look_kept (by rw [hp]; rfl)]
    exact h.entry (hc p hp)
  bound := h.bound
  held := h.held

theorem NamesTold.started (h : NamesTold u N k sh g) :
    NamesTold u N k sh (Function.update g i (some (o, .free))) where
  row := h.row
  entry := h.entry
  bound := h.bound
  held {j q} hg := by
    by_cases hj : j = i
    · subst hj
      rw [Function.update_self] at hg
      cases hg
      trivial
    · rw [Function.update_of_ne hj] at hg
      exact h.held hg

theorem NamesTold.current (h : NamesTold u N k sh g) (hk : k.Settled) : sh.ProfileCurrent u := by
  intro p hp
  obtain ⟨n, -, hn, names⟩ := h.entry hp
  rcases hk with hk | hk
  · rw [hk] at hn; cases hn
  · cases hk.symm.trans hn
    exact h.row.trans names

/-- What a thread has seen after a call that leaves the names as they are. -/
theorem NamesTold.has {r} {p : Turn} (h : NamesTold u N k sh g) (hg : g i = some (o, p))
    (ha : (turns u o).allow p op) (he : exec c i o op sh = some (sh', r))
    (hn : sh'.db.namesOf u = sh.db.namesOf u) :
    ((turns u o).next p op r).Has N (profileHeld u k i op) := by
  cases p with
  | setting names =>
    obtain ⟨p, rfl, -⟩ := ha
    cases r <;> trivial
  | updated names =>
    obtain rfl : op = .redis (.del (.userProfile u)) := ha
    cases r with
    | ok _ => exact h.held hg
    | error _ => trivial
  | free =>
    have seen {x : User} (hx : sh'.db.namesOf u = some x.names) : N k.changes = some x.names :=
      h.row.symm.trans (hn.symm.trans hx)
    cases op with
    | redis op => cases op <;> cases r <;> trivial
    | prisma op =>
      cases op with
      | userFindById v =>
        cases r with
        | error e => trivial
        | ok found =>
          cases found with
          | none => trivial
          | some x =>
            show Turn.Has N _ (if v = u then Turn.setting x.names else .free)
            split
            · next hv =>
              subst hv
              exact ⟨k.changes, if_pos rfl, seen (exec_found he)⟩
            · trivial
      | userUpdate v data =>
        cases r with
        | error e => trivial
        | ok x =>
          show Turn.Has N _ (if v = u then Turn.updated x.names else .free)
          split
          · next hv =>
            subst hv
            rcases exec_plain_update (u := v) ha he with ⟨-, e, hr⟩ | ⟨x', -, hx, hr | ⟨-, e, hr⟩⟩
            · cases hr
            · cases hr
              exact ⟨k.changes, if_pos rfl, seen (hx.trans (if_pos rfl))⟩
            · cases hr
          · trivial
      | _ => exact ha.elim
    | _ => exact ha.elim

theorem profileHeld_cases {n : Nat} (h : profileHeld u k i op = some n) :
    n = k.changes ∨ k.held i = some n := by
  unfold profileHeld at h
  split at h
  · split at h
    · exact .inl (Option.some.inj h).symm
    · exact .inr h
  · split at h
    · exact .inl (Option.some.inj h).symm
    · exact .inr h
  · exact .inr h

theorem profileKept_of_set {p : Profile} (hc : c ≠ .fail) :
    profileKept u k i c (.redis (.set (.userProfile u) p)) = k.held i := by
  cases c with
  | fail => exact absurd rfl hc
  | ok a => exact if_pos rfl
  | failAfter a => exact if_pos rfl

theorem profileKept_of_free (h : Turn.Allows u .free op) : profileKept u k i c op = k.kept := by
  unfold profileKept
  split
  · rfl
  · exact if_neg h
  · rfl

/-- What the entry has after a call. -/
theorem NamesTold.entered {r} {p : Turn} {p' : Profile} (h : NamesTold u N k sh g)
    (hg : g i = some (o, p)) (ha : (turns u o).allow p op) (he : exec c i o op sh = some (sh', r))
    (hp : sh'.redis (.userProfile u) = some p') :
    ∃ n ≤ k.changes, profileKept u k i c op = some n ∧ N n = some p'.names := by
  have same (hk : profileKept u k i c op = k.kept)
      (hr : sh'.redis (.userProfile u) = sh.redis (.userProfile u)) :
      ∃ n ≤ k.changes, profileKept u k i c op = some n ∧ N n = some p'.names := by
    rw [hk]
    exact h.entry (hr ▸ hp)
  cases p with
  | setting names =>
    obtain ⟨p, rfl, rfl⟩ := ha
    obtain ⟨n, hn, names⟩ := h.held hg
    by_cases hc : c = .fail
    · subst hc
      cases he
      exact same rfl rfl
    · cases (exec_set hc he).symm.trans hp
      exact ⟨n, h.bound hn, (profileKept_of_set hc).trans hn, names⟩
  | updated names =>
    obtain rfl : op = .redis (.del (.userProfile u)) := ha
    by_cases hc : c = .fail
    · subst hc
      cases he
      exact same rfl rfl
    · rw [exec_del hc he] at hp
      cases hp
  | free => exact same (profileKept_of_free ha) (exec_free ha he).1

theorem NamesTold.call {r} {p : Turn} (h : NamesTold u N k sh g) (hg : g i = some (o, p))
    (ha : (turns u o).allow p op) (he : exec c i o op sh = some (sh', r))
    (hn : sh'.db.namesOf u = sh.db.namesOf u) :
    NamesTold u N ((k.copy i (profileHeld u k i op) (profileKept u k i c op)).look
      (sh'.redis (.userProfile u)).isSome) sh'
      (Function.update g i (some (o, (turns u o).next p op r))) := by
  refine ⟨hn.trans h.row, fun {p'} hp => ?_, ?_, ?_⟩
  · rw [Copies.look_kept (by rw [hp]; rfl)]
    exact h.entered hg ha he hp
  · refine Copies.bound_update (fun n hs => ?_) fun j n hs => h.bound hs
    rcases profileHeld_cases hs with rfl | hs
    · exact le_rfl
    · exact h.bound hs
  · exact Copies.held_update (P := fun q x => q.2.Has N x) (h.has hg ha he hn) fun j q _ hg => h.held hg

theorem Turn.Has.congr {x : Option Nat} {q : Turn} (h : q.Has N x)
    (hN : ∀ n, x = some n → N' n = N n) : q.Has N' x := by
  cases q with
  | free => trivial
  | updated names | setting names =>
    obtain ⟨n, hx, hn⟩ := h
    exact ⟨n, hx, (hN n hx).trans hn⟩

/-- A call that changes the names is an update of the user; the thread has them
if it is answered. -/
theorem update_of_names {r} {p : Turn} (ha : (turns u o).allow p op)
    (he : exec c i o op sh = some (sh', r)) (hn : sh'.db.namesOf u ≠ sh.db.namesOf u) :
    p = .free ∧ (∀ q, sh'.redis (.userProfile u) = some q → sh.redis (.userProfile u) = some q) ∧
    ((∃ names, sh'.db.namesOf u = some names ∧ (turns u o).next p op r = .updated names) ∨
      (∃ a, c = .failAfter a) ∧ (turns u o).next p op r = .free) := by
  cases p with
  | setting names =>
    obtain ⟨q, rfl, -⟩ := ha
    exact absurd (namesOf_congr (exec_spares rfl he)) hn
  | updated names =>
    obtain rfl : op = .redis (.del (.userProfile u)) := ha
    exact absurd (namesOf_congr (exec_spares rfl he)) hn
  | free =>
    obtain ⟨cache, hu | ⟨v, data, rfl⟩⟩ := exec_free ha he
    · exact absurd (namesOf_congr hu) hn
    refine ⟨rfl, fun q hq => cache ▸ hq, ?_⟩
    rcases exec_plain_update (u := u) ha he with ⟨rfl, -⟩ | ⟨x, -, hx, hr⟩
    · exact absurd rfl hn
    · by_cases hv : v = u
      · rw [if_pos hv] at hx
        rcases hr with rfl | ⟨hc, e, rfl⟩
        · exact .inl ⟨_, hx, if_pos hv⟩
        · exact .inr ⟨hc, rfl⟩
      · rw [if_neg hv] at hx
        exact absurd hx hn

theorem NamesTold.change {r} {p : Turn} (h : NamesTold u N k sh g) (ha : (turns u o).allow p op)
    (he : exec c i o op sh = some (sh', r)) (hn : sh'.db.namesOf u ≠ sh.db.namesOf u) :
    ∃ N', NamesTold u N' ((k.change i).look (sh'.redis (.userProfile u)).isSome) sh'
      (Function.update g i (some (o, (turns u o).next p op r))) := by
  obtain ⟨rfl, cache, next⟩ := update_of_names ha he hn
  let later : Nat → Option (String × String) := Function.update N (k.changes + 1) (sh'.db.namesOf u)
  have last : later (k.changes + 1) = sh'.db.namesOf u := Function.update_self _ _ _
  have before {n : Nat} (hn : n ≤ k.changes) : later n = N n := Function.update_of_ne (by omega) _ _
  refine ⟨later, last.symm, fun {q} hq => ?_, ?_, ?_⟩
  · rw [Copies.look_kept (by rw [hq]; rfl)]
    obtain ⟨n, hle, hk, names⟩ := h.entry (cache q hq)
    exact ⟨n, Nat.le_succ_of_le hle, hk, (before hle).trans names⟩
  · exact Copies.bound_update (fun n hs => (Option.some.inj hs).ge)
      fun j n hs => Nat.le_succ_of_le (h.bound hs)
  · refine Copies.held_update (P := fun q x => q.2.Has later x) ?_ fun j q _ hg =>
      (h.held hg).congr fun n hx => before (h.bound hx)
    rcases next with ⟨names, hnames, hnext⟩ | ⟨-, hnext⟩
    · rw [hnext]
      exact ⟨_, rfl, last.trans hnames⟩
    · rw [hnext]
      trivial

theorem NamesTold.step (h : NamesTold u N k s.shared g)
    (hf : Machine.Follows service .crashed (turns u) (fun _ => .free) s g l t g') :
    ∃ N', NamesTold u N' (profileCopies u k s l t) t.shared g' := by
  cases hf with
  | start ha _ =>
    exact ⟨N, h.started.look (namesOf_congr (accept_users ha)) fun p hp => by rwa [accept_redis ha] at hp⟩
  | env he => exact ⟨N, h.look (namesOf_congr (env_users he)) fun p hp => env_redis he hp⟩
  | kill _ _ => exact ⟨N, h.look rfl fun _ hp => hp⟩
  | @run i c o op f sh r p hi hg ha he =>
    simp only [profileCopies, Config.calling_of_call hi]
    by_cases hn : sh.db.namesOf u = s.shared.db.namesOf u
    · rw [if_pos hn]
      exact ⟨N, h.call hg ha he hn⟩
    · rw [if_neg hn]
      exact h.change ha he hn

/-! ## Who is still to set the entry -/

/-- The entry has the last change or is absent, or a thread that has seen the
last change is still to set it. -/
def Led (u : Int) (k : Copies) (s : State) : Prop := k.Settled ∨ ∃ i, s.Leads u k i

/-- A step that leaves the names as they are and does not move the thread. -/
theorem State.Leads.stays (h : s.Leads u k i) (hs : step s l = some t) (hr : ∀ c, l ≠ .run i c)
    (hk : l ≠ .kill i) (hn : t.shared.db.namesOf u = s.shared.db.namesOf u) :
    t.Leads u (profileCopies u k s l t) i := by
  obtain ⟨fresh, next⟩ := h
  constructor
  · cases l with
    | run j c =>
      have hj : i ≠ j := fun hij => hr c (by rw [hij])
      cases hc : s.calling j with
      | none => simp only [profileCopies, hc]; exact fresh
      | some op =>
        simp only [profileCopies, hc, if_pos hn]
        exact (Function.update_of_ne hj _ _).trans fresh
    | _ => exact fresh
  · rcases next with hc | ⟨p, hc⟩
    · exact .inl (Machine.step_calling hs hc hr hk)
    · exact .inr ⟨p, Machine.step_calling hs hc hr hk⟩

/-- A thread that has updated the row deletes the entry next. -/
theorem calling_of_updated (h : Machine.Alive (turns u) Freed s.threads g i o (.updated names)) :
    s.calling i = some (.redis (.del (.userProfile u))) := by
  obtain ⟨q, hi, -, hw⟩ := h
  cases q with
  | ret r => cases hw
  | call op f =>
    obtain ⟨hop, -⟩ := hw
    obtain rfl : op = .redis (.del (.userProfile u)) := hop
    exact Config.calling_of_call hi

theorem not_setsNext_of_free (h : Turn.Allows u .free op) (hi : s.calling i = some op) :
    ¬ s.SetsNext u i := by
  rintro (hc | ⟨p, hc⟩)
  · cases hi.symm.trans hc
    exact h rfl
  · cases hi.symm.trans hc
    exact h rfl

/-- A call that leaves the names as they are. -/
theorem Led.call {r} {p : Turn} (hc : SeenLast u k s (.run i c)) (h : Led u k s)
    (hi : s.calling i = some op) (ha : (turns u o).allow p op)
    (he : exec c i o op s.shared = some (t.shared, r)) (hs : step s (.run i c) = some t)
    (hn : t.shared.db.namesOf u = s.shared.db.namesOf u) :
    Led u (profileCopies u k s (.run i c) t) t := by
  have noted : profileCopies u k s (.run i c) t =
      (k.copy i (profileHeld u k i op) (profileKept u k i c op)).look
        (t.shared.redis (.userProfile u)).isSome := by
    simp only [profileCopies, hi, if_pos hn]
  have others {j} (hj : j ≠ i) (hl : s.Leads u k j) : Led u (profileCopies u k s (.run i c) t) t :=
    .inr ⟨j, hl.stays hs (fun c' he => hj (by cases he; rfl)) (fun he => by cases he) hn⟩
  have settled (hk : k.Settled) (hsame : profileKept u k i c op = k.kept) :
      Led u (profileCopies u k s (.run i c) t) t := by
    refine .inl (noted ▸ Copies.Settled.look ?_)
    show profileKept u k i c op = none ∨ profileKept u k i c op = some k.changes
    rw [hsame]
    exact hk
  have failed (hfail : c = .fail) : Led u (profileCopies u k s (.run i c) t) t := by
    subst hfail
    rcases h with hk | ⟨j, hj⟩
    · exact settled hk rfl
    · by_cases hji : j = i
      · subst hji
        rcases hc.stopped j (.inr rfl) hj with hk | ⟨m, hm, hl⟩
        · exact settled hk rfl
        · exact others hm hl
      · exact others hji hj
  by_cases hfail : c = .fail
  · exact failed hfail
  cases p with
  | setting names =>
    obtain ⟨p, rfl, -⟩ := ha
    rcases hc.set i c p rfl hfail hi with fresh | ⟨j, hj, hl⟩
    · exact .inl (noted ▸ Copies.Settled.look (.inr ((profileKept_of_set hfail).trans fresh)))
    · exact others hj hl
  | updated names =>
    obtain rfl : op = .redis (.del (.userProfile u)) := ha
    have gone : t.shared.redis (.userProfile u) = none := exec_del hfail he
    refine .inl (.inl ?_)
    rw [noted, gone]
    rfl
  | free =>
    rcases h with hk | ⟨j, hj⟩
    · exact settled hk (profileKept_of_free ha)
    · have hji : j ≠ i := by
        rintro rfl
        exact not_setsNext_of_free ha hi hj.2
      exact others hji hj

/-- A call that changes the names: the thread has seen it, or its answer is lost. -/
theorem Led.change {r} {p : Turn} (hc : SeenLast u k s (.run i c)) (hi : s.calling i = some op)
    (ha : (turns u o).allow p op) (he : exec c i o op s.shared = some (t.shared, r))
    (hs : step s (.run i c) = some t)
    (alive : Machine.Alive (turns u) Freed t.threads g' i o ((turns u o).next p op r))
    (hn : t.shared.db.namesOf u ≠ s.shared.db.namesOf u) :
    Led u (profileCopies u k s (.run i c) t) t := by
  have noted : profileCopies u k s (.run i c) t =
      (k.change i).look (t.shared.redis (.userProfile u)).isSome := by
    simp only [profileCopies, hi, if_neg hn]
  obtain ⟨-, -, ⟨names, -, next⟩ | ⟨⟨a, rfl⟩, -⟩⟩ := update_of_names ha he hn
  · rw [next] at alive
    refine .inr ⟨i, ?_, .inl (calling_of_updated alive)⟩
    rw [noted]
    exact Function.update_self i _ _
  · refine .inl (.inl ?_)
    rw [noted]
    show (if _ then k.kept else none) = none
    rw [hc.lost i a t rfl hs hn, ite_self]

theorem Led.step (hc : SeenLast u k s l) (ht : Machine.Tracks .crashed (turns u) Freed s.threads g)
    (h : Led u k s) (hf : Machine.Follows service .crashed (turns u) (fun _ => .free) s g l t g') :
    Led u (profileCopies u k s l t) t := by
  have hs : Pactic.step s l = some t := hf.step
  cases l with
  | start o =>
    have names : t.shared.db.namesOf u = s.shared.db.namesOf u := by
      cases hf with
      | start ha _ => exact namesOf_congr (accept_users ha)
    rcases h with hk | ⟨j, hj⟩
    · exact .inl hk.look
    · exact .inr ⟨j, hj.stays hs (fun c he => by cases he) (fun he => by cases he) names⟩
  | env e =>
    have names : t.shared.db.namesOf u = s.shared.db.namesOf u := by
      cases hf with
      | env he => exact namesOf_congr (env_users he)
    rcases h with hk | ⟨j, hj⟩
    · exact .inl hk.look
    · exact .inr ⟨j, hj.stays hs (fun c he => by cases he) (fun he => by cases he) names⟩
  | kill i =>
    have names : t.shared.db.namesOf u = s.shared.db.namesOf u := by
      cases hf with
      | kill _ _ => rfl
    have others {j} (hj : j ≠ i) (hl : s.Leads u k j) : Led u (profileCopies u k s (.kill i) t) t :=
      .inr ⟨j, hl.stays hs (fun c he => by cases he) (fun he => hj (by cases he; rfl)) names⟩
    rcases h with hk | ⟨j, hj⟩
    · exact .inl hk.look
    · by_cases hji : j = i
      · subst hji
        rcases hc.stopped j (.inl rfl) hj with hk | ⟨m, hm, hl⟩
        · exact .inl hk.look
        · exact others hm hl
      · exact others hji hj
  | run i c =>
    obtain ⟨o, op, f, r, p, hi, -, allowed, he, alive⟩ := hf.alive_moved ht
    have calling := Config.calling_of_call hi
    by_cases hn : t.shared.db.namesOf u = s.shared.db.namesOf u
    · exact h.call hc calling allowed he hs hn
    · exact Led.change hc calling allowed he hs alive hn

/-- When no lookup and no update is in progress the entry of a user is absent or
carries what the database has, if the calls that see the last change of the row
are the last to set the entry. -/
theorem profile_survives_races (hq : Quiet s) (hp : s.shared.ProfileCurrent u)
    (h : service.Logs .crashed (profileCopies u) (fun k s l => ProfileRun s l ∧ SeenLast u k s l) s
      (.first (s.shared.redis (.userProfile u)).isSome) t k) (idle : t.idle = true) :
    t.shared.ProfileCurrent u := by
  have start : NamesTold u (fun _ => s.shared.db.namesOf u)
      (.first (s.shared.redis (.userProfile u)).isSome) s.shared fun _ => none := by
    refine ⟨rfl, fun {p} hc => ⟨0, le_rfl, ?_, hp p hc⟩, nofun, nofun⟩
    rw [hc]
    rfl
  have led : Led u (.first (s.shared.redis (.userProfile u)).isSome) s := by
    refine .inl ?_
    cases s.shared.redis (.userProfile u) with
    | none => exact .inl rfl
    | some p => exact .inr rfl
  let Told (v : State) (g : Machine.Ghost Origin Turn) (n : Copies) : Prop :=
    Led u n v ∧ ∃ N, NamesTold u N n v.shared g
  have step (v g n l w g') (hc : ProfileRun v l ∧ SeenLast u n v l)
      (ht : Machine.Tracks .crashed (turns u) Freed v.threads g) (hI : Told v g n)
      (hf : Machine.Follows service .crashed (turns u) (fun _ => .free) v g l w g') :
      Told w g' (profileCopies u n v l w) := by
    obtain ⟨led, N, told⟩ := hI
    exact ⟨led.step hc.2 ht hf, told.step hf⟩
  obtain ⟨g, -, led, N, told⟩ := Machine.Tracks.logged
    (C := fun s l => ProfileRun s l ∧ PlainUpdates l) (service_frees (fun _ _ hc => hc) u)
    (fun _ _ _ hc => ⟨hc.1, hc.2.plain⟩) (.of_nil hq.threads) ⟨led, _, start⟩ step h
  rcases led with hk | ⟨i, -, next⟩
  · exact told.current hk
  · have busy : t.Busy i := by
      rcases next with hc | ⟨p, hc⟩
      · obtain ⟨o, f, hi⟩ := Config.calling_eq_some.mp hc
        exact ⟨o, _, f, hi⟩
      · obtain ⟨o, f, hi⟩ := Config.calling_eq_some.mp hc
        exact ⟨o, _, f, hi⟩
    exact absurd busy (Config.idle_iff.mp idle i)

end

def Step.ofProfiles : Step → Bool
  | .start (.http _ (.getProfile _)) | .start (.http _ (.updateProfile _ _)) => true
  | .start _ => false
  | _ => true

theorem profileRun_of_ofProfiles {s : State} {l : Step} (h : l.ofProfiles = true) : ProfileRun s l := by
  intro o hl
  subst hl
  unfold Step.ofProfiles at h
  split at h
  · next tok v he => cases he; exact ⟨tok, .inl ⟨v, rfl⟩⟩
  · next tok body client he => cases he; exact ⟨tok, .inr ⟨body, client, rfl⟩⟩
  · cases h
  · next hno => exact absurd rfl (hno o)

/-- `SetsNext`, as a test. -/
def State.setsNext (s : State) (u : Int) (i : Nat) : Bool :=
  match s.calling i with
  | some (.redis (.del (.userProfile v))) => v = u
  | some (.redis (.set (.userProfile v) _)) => v = u
  | _ => false

theorem State.setsNext_of_test {s : State} {u : Int} {i : Nat} (h : s.setsNext u i = true) :
    s.SetsNext u i := by
  unfold State.setsNext at h
  split at h
  · next v hc => exact .inl (of_decide_eq_true h ▸ hc)
  · next v p hc => exact .inr ⟨p, of_decide_eq_true h ▸ hc⟩
  · cases h

/-- Every call is answered, and the entry is set by who has seen the last change
or before somebody else who has. -/
def seenLast (u : Int) (k : Copies) (s : State) : Step → Bool
  | .run i (.ok _) => match s.calling i with
    | some (.redis (.set (.userProfile v) _)) => v ≠ u || k.Fresh i ||
        (List.range s.threads.length).any fun j => j ≠ i && k.Fresh j && s.setsNext u j
    | _ => true
  | .run _ _ | .kill _ => false
  | _ => true

theorem seenLast_of_test {u : Int} {k : Copies} {s : State} {l : Step} (plain : PlainUpdates l)
    (h : seenLast u k s l = true) : SeenLast u k s l := by
  refine ⟨plain, fun i c p hl hc hi => ?_, fun i hl => ?_, fun i a t hl => ?_⟩
  · subst hl
    cases c with
    | fail => exact absurd rfl hc
    | failAfter a => cases h
    | ok a =>
      simp only [seenLast, hi, ne_eq, not_true_eq_false, decide_false, Bool.false_or, Bool.or_eq_true,
        decide_eq_true_eq, List.any_eq_true, Bool.and_eq_true] at h
      rcases h with fresh | ⟨j, -, ⟨hj, fresh⟩, next⟩
      · exact .inl fresh
      · exact .inr ⟨j, by simpa using hj, fresh, State.setsNext_of_test next⟩
  · rcases hl with rfl | rfl
    · cases h
    · cases h
  · subst hl
    cases h

def aliceAlone : State := State.withUsers ⟨[⟨1, "alice@a", "alice", "a", 0, 0, none⟩], by decide⟩

theorem aliceAlone_current : aliceAlone.shared.ProfileCurrent 1 := by
  intro p hp
  cases hp

/-- A lookup reads the row and sets the entry after `n` calls of an update. -/
def lookupAcrossUpdate (n : Nat) : List Step :=
  .start (.http 1 (.getProfile 1)) :: calls 0 2 ++
  .start (.http 1 (.updateProfile renameBody plainClient)) :: calls 1 n ++ calls 0 1 ++ calls 1 (3 - n)

theorem lookupAcrossUpdate_plain {n : Nat} {l : Step} (h : l ∈ lookupAcrossUpdate n) :
    PlainUpdates l := by
  intro tok body client he id d hd
  subst he
  simp [lookupAcrossUpdate, calls] at h
  obtain ⟨rfl, rfl, rfl⟩ := h
  cases hd
  exact ⟨rfl, fun db db' hdb => by cases hdb; rfl⟩

/-- The lookup sets the old username, and the update sets the new one later. -/
theorem profile_survives_races_rename : ∃ t k,
    service.Logs .crashed (profileCopies 1) (fun k s l => ProfileRun s l ∧ SeenLast 1 k s l) aliceAlone
      (.first (aliceAlone.shared.redis (.userProfile 1)).isSome) t k ∧ t.idle = true ∧
    (t.shared.redis (.userProfile 1)).isSome ∧ t.shared.ProfileCurrent 1 := by
  have h : (service.runsLog .crashed (profileCopies 1)
      (fun k s l => Step.ofProfiles l && seenLast 1 k s l) (lookupAcrossUpdate 1) aliceAlone
        (.first (aliceAlone.shared.redis (.userProfile 1)).isSome)).any
      (fun x => x.1.idle && (x.1.shared.redis (.userProfile 1)).isSome) = true := by decide +kernel
  obtain ⟨⟨t, k⟩, ht, hp⟩ := Option.any_eq_true _ _ |>.mp h
  obtain ⟨idle, cached⟩ := (Bool.and_eq_true _ _).mp hp
  have run : service.Logs .crashed (profileCopies 1)
      (fun k s l => ProfileRun s l ∧ SeenLast 1 k s l) aliceAlone
      (.first (aliceAlone.shared.redis (.userProfile 1)).isSome) t k := by
    refine Machine.logs_of_runsLog (fun n v l hl htest => ?_) .refl ht
    obtain ⟨profiles, seen⟩ := (Bool.and_eq_true _ _).mp htest
    exact ⟨profileRun_of_ofProfiles profiles, seenLast_of_test (lookupAcrossUpdate_plain hl) seen⟩
  exact ⟨t, k, run, idle, cached,
    profile_survives_races (State.withUsers_quiet _) aliceAlone_current run idle⟩

/-- The update is over when the lookup sets the old username. -/
theorem profile_stale_after_race : ∃ t, Reach ProfileRun aliceAlone t ∧ t.idle = true ∧
    ¬ t.shared.ProfileCurrent 1 := by
  have h : ((runSteps (lookupAcrossUpdate 3) aliceAlone).any fun t => t.idle &&
      (t.shared.redis (.userProfile 1)).any fun p => t.shared.db.namesOf 1 ≠ some p.names) = true := by
    decide +kernel
  obtain ⟨t, ht, hp⟩ := runSteps_any h
  obtain ⟨idle, stale⟩ := (Bool.and_eq_true _ _).mp hp
  obtain ⟨p, hp, hn⟩ := Option.any_eq_true _ _ |>.mp stale
  have profiles : ∀ l ∈ lookupAcrossUpdate 3, l.ofProfiles = true := by
    simp [lookupAcrossUpdate, calls, Step.ofProfiles]
  exact ⟨t, Machine.reach_of_runs (fun l hl _ => profileRun_of_ofProfiles (profiles l hl)) ht, idle,
    fun current => of_decide_eq_true hn (current p hp)⟩

end Pactic
