import Pactic.Users.ProfileRaces
import Pactic.Wallets.ListsAlone

/-! # Cached profiles, one operation at a time

A lookup caches what it has read. An update caches more than a lookup reads, and
a signup brings a deleted account back without a look at the cache. -/
namespace Pactic
open Keyed Resumption

/-- What a lookup reads of a row. -/
def User.profile (u : User) : Profile := ⟨u.id, u.email, u.username, u.createdAt, none⟩

def Db.profileOf (db : Db) (u : Int) : Option Profile := (db.users.find? u).map User.profile

/-- The entry of a user is absent or is what a lookup would read. -/
def Shared.ProfileFresh (sh : Shared) (u : Int) : Prop :=
  ∀ p, sh.redis (.userProfile u) = some p → sh.db.profileOf u = some p

/-- The operations on accounts and profiles. -/
def Request.ofProfiles : Request → Bool
  | signup _ | getProfile _ | updateProfile _ _ | deleteUser _ => true
  | _ => false

/-- They run to completion alone, and every call is answered. -/
structure ProfilesAlone (s : State) (l : Step) : Prop where
  endpoints : ∀ o, l = .start o → ∃ tok r, o = .http tok r ∧ r.ofProfiles = true
  alone : ∀ o i, l = .start o → ¬ s.Busy i
  answered : ∀ i c, l = .run i c → ∃ a, c = .ok a
  lives : ∀ i, l ≠ .kill i

/-- No update of the profile of `u` is carried out. While the profile is cached,
no update of another user changes what a lookup would read, and no signup gives
the account of `u` another username. -/
structure KeepsProfile (u : Int) (s : State) (l : Step) : Prop where
  own : ∀ i c tok body client d k x, l = .run i c → s.threads[i]? =
      some ⟨.http tok (.updateProfile body client), .call (.prisma (.userUpdate u (some d))) k⟩ →
    s.shared.db.users.find? u = some x →
    (s.shared.db.replaceUser u (d.apply s.shared.db.now x)).bind d.nested = none
  other : ∀ i c tok body client id d k x db, l = .run i c → s.threads[i]? =
      some ⟨.http tok (.updateProfile body client), .call (.prisma (.userUpdate id (some d))) k⟩ →
    id ≠ u → s.shared.db.users.find? id = some x →
    (s.shared.db.replaceUser id (d.apply s.shared.db.now x)).bind d.nested = some db →
    (s.shared.redis (.userProfile u)).isSome → db.profileOf u = s.shared.db.profileOf u
  signup : ∀ i c o email username password k x, l = .run i c → s.threads[i]? =
      some ⟨o, .call (.prisma (.userUpsert email username password)) k⟩ →
    (s.shared.db.users.rows.find? fun v => v.email = email) = some x → x.id = u →
    (s.shared.redis (.userProfile u)).isSome → x.username = username

/-! ## The programs -/

/-- What a thread has seen of user `u`. -/
inductive Seen where
  | nothing
  | row (p : Profile)
  | updated
  deriving DecidableEq

def Origin.updatesProfile : Origin → Bool
  | http _ (.updateProfile _ _) => true
  | _ => false

def Seen.next (u : Int) : Seen → (o : Op) → Except Err o.Res → Seen
  | updated, _, _ => .updated
  | _, .prisma (.userFindById id), .ok (some x) => if id = u then .row x.profile else .nothing
  | _, .prisma (.userUpdate id _), .ok _ => if id = u then .updated else .nothing
  | _, _, _ => .nothing

/-- A lookup caches the row it has just read, an update what it likes. -/
def Origin.AllowsSeen (o : Origin) (u : Int) (p : Seen) : Op → Prop
  | .redis (.get (.userProfile _)) | .redis (.del (.userProfile _)) => True
  | .redis (.set (.userProfile k) v) => k = u → p = .row v ∨ p = .updated ∧ o.updatesProfile = true
  | .prisma (.userUpdate _ data) => o.updatesProfile = true ∨
      ∃ now, data = some { deletedAt := some (some now) }
  | .prisma (.userFindFirst _ _) | .prisma (.userFindById _) | .prisma (.userUpsert _ _ _)
  | .library _ => True
  | _ => False

def sights (u : Int) (o : Origin) : Monitor Op Op.Res Err Seen := ⟨o.AllowsSeen u, Seen.next u⟩

section
variable {u : Int} {o : Origin} {p : Seen} {α β : Type}

theorem sees_call {op : Op} {f : op.Res → Proc α} (hop : o.AllowsSeen u p op)
    (h : ∀ a, (sights u o).wp (f a) (fun _ _ => True) (Seen.next u p op (.ok a))) :
    (sights u o).wp (call op >>= f) (fun _ _ => True) p :=
  (Monitor.wp_perform_bind _ _ _ _ _).mpr ⟨hop, h, fun _ => trivial⟩

theorem sees_answer {c : Proc α} {f : α → β} (h : (sights u o).wp c (fun _ _ => True) p) :
    (sights u o).wp (do let a ← c; pure (f a)) (fun _ _ => True) p := by
  refine (Monitor.wp_bind _ _ _ _ _).mpr (Monitor.wp_mono _ h fun r q _ => ?_)
  cases r with
  | ok _ => trivial
  | error _ => trivial

theorem sees_validated {v tok : Int} {c : Proc α} (h : (sights u o).wp c (fun _ _ => True) p) :
    (sights u o).wp (do validateTokenUser v tok; c) (fun _ _ => True) p := by
  refine (Monitor.wp_bind _ _ _ _ _).mpr ?_
  unfold validateTokenUser
  split
  · trivial
  · exact h

theorem create_sees (b : CreateUserDto) :
    (sights u o).wp (UsersService.create b) (fun _ _ => True) .nothing := by
  refine sees_call trivial fun found => ?_
  cases found.filter fun v => v.deletedAt = none with
  | some _ => trivial
  | none => exact sees_call trivial fun _ => sees_call trivial fun _ => trivial

theorem getProfile_sees (v : Int) :
    (sights u o).wp (UsersService.getProfile v) (fun _ _ => True) .nothing := by
  refine sees_call trivial fun cached => ?_
  cases cached with
  | some _ => trivial
  | none =>
    refine sees_call trivial fun found => ?_
    cases found with
    | none => trivial
    | some x => exact sees_call (fun hv => .inl (if_pos hv)) fun _ => trivial

theorem updateProfile_sees {client : Client} (ho : o.updatesProfile = true) (v : Int)
    (dto : JsonObject) :
    (sights u o).wp (UsersService.updateProfile client v dto) (fun _ _ => True) .nothing := by
  refine sees_call (.inl ho) fun x => sees_call trivial fun _ =>
    sees_call (fun hv => ?_) fun _ => trivial
  have updated : Seen.next u .nothing (.prisma (.userUpdate v (client v dto))) (.ok x) = .updated :=
    if_pos hv
  refine .inr ⟨?_, ho⟩
  rw [updated]
  rfl

theorem deleteUser_sees (v : Int) :
    (sights u o).wp (UsersService.deleteUser v) (fun _ _ => True) .nothing := by
  refine sees_call trivial fun found => ?_
  cases found with
  | none => trivial
  | some x =>
    dsimp only
    split
    · trivial
    · exact sees_call trivial fun now => sees_call (.inr ⟨now, rfl⟩) fun _ =>
        sees_call trivial fun _ => trivial

theorem service_sees {C : State → Step → Prop} (hC : ∀ s l, C s l → ProfilesAlone s l) (u : Int) :
    Machine.Obeys service (sights u) (fun _ _ _ => True) (fun _ => .nothing) C := by
  intro s o sh hc _
  obtain ⟨tok, r, rfl, hr⟩ := (hC _ _ hc).endpoints o rfl
  cases r with
  | signup b => exact sees_answer (create_sees b)
  | getProfile v => exact sees_validated (sees_answer (getProfile_sees v))
  | updateProfile body client =>
    show (sights u _).wp (UsersController.updateProfile client body tok) _ _
    unfold UsersController.updateProfile
    split
    · trivial
    · exact sees_validated (sees_answer (updateProfile_sees rfl _ _))
  | deleteUser v => exact sees_validated (deleteUser_sees v)
  | _ => cases hr

end
/-! ## The entry and the row -/

section
variable {u : Int} {sh sh' : Shared} {i : Nat} {o : Origin} {c : Choice} {p : Seen}

theorem profileOf_congr {db db' : Db} (h : db'.users = db.users) :
    db'.profileOf u = db.profileOf u := by
  rw [Db.profileOf, Db.profileOf, h]

theorem Shared.ProfileFresh.stays (h : sh.ProfileFresh u)
    (hr : ∀ p, sh'.redis (.userProfile u) = some p → sh.redis (.userProfile u) = some p)
    (hn : (sh.redis (.userProfile u)).isSome → sh'.db.profileOf u = sh.db.profileOf u) :
    sh'.ProfileFresh u := by
  intro p hp
  have before := hr p hp
  exact (hn (by rw [before]; rfl)).trans (h p before)

/-- An upsert that gives the account of `u` no other username leaves what a
lookup reads. -/
theorem exec_upsert_profile {e n password : String} {r} (hrow : (sh.db.profileOf u).isSome)
    (hn : ∀ x, (sh.db.users.rows.find? fun v => v.email = e) = some x → x.id = u → x.username = n)
    (he : exec c i o (.prisma (.userUpsert e n password)) sh = some (sh', r)) :
    sh'.db.profileOf u = sh.db.profileOf u := by
  rcases exec_cases he with ⟨rfl, -⟩ | ⟨a, r₀, hrun, -⟩
  · rfl
  simp only [Op.run, PrismaOp.run] at hrun
  split at hrun
  · next x hx =>
    cases hrun
    simp only [Db.profileOf, Shared.note, Table.find?_put]
    split
    · next hid =>
      have found : sh.db.users.find? u = some x :=
        Table.find?_eq_some.mpr ⟨List.mem_of_find?_eq_some hx, hid⟩
      rw [found, Option.map_some, Option.map_some, Option.map_some, ← hn x hx hid]
      rfl
    · rfl
  · split at hrun
    · next ins =>
      cases hrun
      simp only [Db.profileOf, Shared.note, Table.find?_of_insert? ins]
      split
      · next hid =>
        obtain ⟨hnone, -⟩ := Table.insert?_eq_some.mp ins
        rw [Db.profileOf, ← hid, hnone] at hrow
        cases hrow
      · rfl
    · cases hrun
      rfl

/-- A deletion sets nothing that a lookup reads. -/
theorem delete_profile {id : Int} {db db' : Db} {x : User} {d : UserUpdate} {at₀ : Nat}
    (hd : d = { deletedAt := some (some at₀) }) (hx : db.users.find? id = some x)
    (hdb : (db.replaceUser id (d.apply db.now x)).bind d.nested = some db') :
    db'.profileOf u = db.profileOf u := by
  subst hd
  obtain ⟨-, hid⟩ := Table.find?_eq_some.mp hx
  have key : (({ deletedAt := some (some at₀) } : UserUpdate).apply db.now x).id = id := hid
  unfold Db.replaceUser at hdb
  rw [if_pos key] at hdb
  split at hdb
  · cases hdb
  · cases hdb
    simp only [Db.profileOf, Table.find?_put]
    split
    · next hu =>
      have same : id = u := key.symm.trans hu
      rw [← same, hx]
      rfl
    · rfl

end

/-- The entry is fresh, the thread in progress has seen the row as it is, and no
profile update of `u` has been carried out. -/
structure Transparent (u : Int) (s : State) (g : Machine.Ghost Origin Seen) : Prop where
  fresh : s.shared.ProfileFresh u
  seen : ∀ i o p, g i = some (o, .row p) → s.Busy i → s.shared.db.profileOf u = some p
  updated : ∀ i o, g i = some (o, .updated) → o.updatesProfile = false

section
variable {u : Int} {s t : State} {l : Step} {g g' : Machine.Ghost Origin Seen} {i : Nat} {o : Origin}
  {p : Seen} {sh : Shared}

theorem updates_of_updatesProfile (h : o.updatesProfile = true) :
    ∃ tok body client, o = .http tok (.updateProfile body client) := by
  unfold Origin.updatesProfile at h
  split at h
  · exact ⟨_, _, _, rfl⟩
  · cases h

/-- A call of the cache keeps the entry fresh. -/
theorem Transparent.cache {op : RedisOp} {a : Answer} {r} (h : Transparent u s g)
    (hg : g i = some (o, p)) (busy : s.Busy i) (allowed : o.AllowsSeen u p (.redis op))
    (he : exec (.ok a) i o (.redis op) s.shared = some (sh, r)) : sh.ProfileFresh u := by
  cases he
  cases op with
  | get k => exact h.fresh
  | del k =>
    refine h.fresh.stays (fun q hq => ?_) fun _ => rfl
    simp only [RedisOp.run] at hq
    by_cases hk : CacheKey.userProfile u = k
    · subst hk
      rw [Function.update_self] at hq
      cases hq
    · rwa [Function.update_of_ne hk] at hq
  | set k v =>
    cases k with
    | userProfile w =>
      by_cases hw : w = u
      · subst hw
        rcases allowed rfl with rfl | ⟨rfl, hup⟩
        · intro q hq
          simp only [RedisOp.run, Function.update_self, Option.some.injEq] at hq
          subst hq
          exact h.seen i o v hg busy
        · rw [h.updated i o hg] at hup
          cases hup
      · exact h.fresh.stays (fun q hq => ((cached_of_other hw).1 v).symm.trans hq) fun _ => rfl
    | _ => exact allowed.elim

/-- The row a thread has seen is the row as it is, and a profile update of `u` has
not been carried out. -/
def Seen.Agrees (u : Int) (o : Origin) (sh : Shared) (p : Seen) : Prop :=
  (∀ q, p = .row q → sh.db.profileOf u = some q) ∧ (p = .updated → o.updatesProfile = false)

theorem Transparent.still (h : Transparent u s g) (hu : sh.db.users = s.shared.db.users)
    (hr : sh.redis = s.shared.redis) : sh.ProfileFresh u :=
  h.fresh.stays (fun _ hq => hr ▸ hq) fun _ => profileOf_congr hu

/-- A call that shows no row and updates none. -/
theorem Transparent.blind {p' : Seen} (h : Transparent u s g) (hg : g i = some (o, p))
    (hn : p' = if p = .updated then .updated else .nothing) : p'.Agrees u o sh := by
  rw [hn]
  split
  · next hp =>
    subst hp
    exact ⟨fun q hq => (by cases hq), fun _ => h.updated i o hg⟩
  · exact ⟨fun q hq => (by cases hq), fun hq => (by cases hq)⟩

/-- What a lookup shows is the row. -/
theorem Transparent.lookup {id : Int} {a : Answer} {r} (h : Transparent u s g)
    (hg : g i = some (o, p))
    (he : exec (.ok a) i o (.prisma (.userFindById id)) s.shared = some (sh, r)) :
    (Seen.next u p (.prisma (.userFindById id)) r).Agrees u o sh := by
  have hr : r = .ok (s.shared.db.users.find? id) := (congrArg Prod.snd (Option.some.inj he)).symm
  have users : sh.db.users = s.shared.db.users := exec_spares rfl he
  subst hr
  cases hx : s.shared.db.users.find? id with
  | none => exact h.blind hg (by cases p <;> rfl)
  | some x =>
    by_cases hp : p = .updated
    · exact h.blind hg (by subst hp; rfl)
    have next : Seen.next u p (.prisma (.userFindById id)) (.ok (some x)) =
        if id = u then .row x.profile else .nothing := by
      cases p with
      | updated => exact absurd rfl hp
      | _ => rfl
    rw [next]
    split
    · next hid =>
      refine ⟨fun q hq => ?_, fun hq => by cases hq⟩
      cases hq
      rw [profileOf_congr users, Db.profileOf, ← hid, hx, Option.map_some]
    · exact ⟨fun q hq => (by cases hq), fun hq => (by cases hq)⟩

/-- An update is refused, changes nothing a lookup reads, or finds no entry. -/
theorem Transparent.update {id : Int} {data : Option UserUpdate} {a : Answer} {k} {r}
    (h : Transparent u s g) (hc : KeepsProfile u s (.run i (.ok a)))
    (hi : s.threads[i]? = some ⟨o, .call (.prisma (.userUpdate id data)) k⟩) (hg : g i = some (o, p))
    (allowed : o.AllowsSeen u p (.prisma (.userUpdate id data)))
    (he : exec (.ok a) i o (.prisma (.userUpdate id data)) s.shared = some (sh, r)) :
    sh.ProfileFresh u ∧ (Seen.next u p (.prisma (.userUpdate id data)) r).Agrees u o sh := by
  rcases exec_update he with ⟨rfl, e, rfl⟩ | ⟨d, x, db, rfl, hx, hdb, rfl, hr⟩
  · exact ⟨h.still rfl rfl, h.blind hg (by cases p <;> rfl)⟩
  obtain rfl : r = .ok (d.apply s.shared.db.now x) := by
    rcases hr with ⟨-, hr⟩ | ⟨⟨b, hb⟩, -⟩
    · exact hr
    · cases hb
  have next : Seen.next u p (.prisma (.userUpdate id (some d))) (.ok (d.apply s.shared.db.now x)) =
      if id = u ∨ p = .updated then .updated else .nothing := by
    by_cases hid : id = u
    · cases p <;> simp [Seen.next, hid]
    · cases p <;> simp [Seen.next, hid]
  by_cases hup : o.updatesProfile = true
  · obtain ⟨tok, body, client, rfl⟩ := updates_of_updatesProfile hup
    by_cases hid : id = u
    · subst hid
      have refused := hc.own i _ tok body client d k x rfl hi hx
      rw [hdb] at refused
      cases refused
    · refine ⟨h.fresh.stays (fun q hq => hq) fun hq => ?_, h.blind hg (by simp [next, hid])⟩
      exact hc.other i _ tok body client id d k x db rfl hi hid hx hdb hq
  · obtain ⟨now, hd⟩ := allowed.resolve_left hup
    cases hd
    refine ⟨h.fresh.stays (fun q hq => hq) fun _ => delete_profile rfl hx hdb, ?_⟩
    rw [next]
    refine ⟨fun q hq => ?_, fun _ => by simpa using hup⟩
    split at hq
    · cases hq
    · cases hq

/-- Every answered call keeps the entry fresh. -/
theorem Transparent.call {a : Answer} {op : Op} {k : Except Err op.Res → Proc Reply} {r}
    (h : Transparent u s g) (hc : KeepsProfile u s (.run i (.ok a)))
    (hi : s.threads[i]? = some ⟨o, .call op k⟩) (hg : g i = some (o, p))
    (allowed : o.AllowsSeen u p op) (he : exec (.ok a) i o op s.shared = some (sh, r)) :
    sh.ProfileFresh u ∧ (Seen.next u p op r).Agrees u o sh := by
  have busy : s.Busy i := ⟨o, op, k, hi⟩
  cases op with
  | redis op => exact ⟨h.cache hg busy allowed he, h.blind hg (by cases p <;> rfl)⟩
  | library op =>
    have cache : sh.redis = s.shared.redis := by cases he; rfl
    exact ⟨h.still (exec_spares rfl he) cache, h.blind hg (by cases p <;> rfl)⟩
  | tx op => exact allowed.elim
  | rabbit op => exact allowed.elim
  | prisma op =>
    have cache : sh.redis = s.shared.redis := (PrismaOp.run_frame he).2.1
    cases op with
    | userFindFirst e n =>
      exact ⟨h.still (exec_check he).1 cache, h.blind hg (by cases p <;> rfl)⟩
    | userFindById id => exact ⟨h.still (exec_spares rfl he) cache, h.lookup hg he⟩
    | userUpsert e n password =>
      refine ⟨h.fresh.stays (fun q hq => cache ▸ hq) fun hq => ?_, h.blind hg (by cases p <;> rfl)⟩
      obtain ⟨q, hq'⟩ := Option.isSome_iff_exists.mp hq
      refine exec_upsert_profile (by rw [h.fresh q hq']; rfl) (fun x hx hid => ?_) he
      exact hc.signup i _ o e n password k x rfl hi hx hid hq
    | userUpdate id data => exact h.update hc hi hg allowed he
    | _ => exact allowed.elim

theorem Transparent.step (ho : ProfilesAlone s l) (hc : KeepsProfile u s l)
    (alone : ∀ i j, s.Busy i → s.Busy j → i = j) (h : Transparent u s g)
    (hf : Machine.Follows service .crashed (sights u) (fun _ => .nothing) s g l t g') :
    Transparent u t g' := by
  have busy {j} (hj : t.Busy j) := Machine.step_busy hf.step hj
  cases hf with
  | @start o sh ha hnone =>
    refine ⟨h.fresh.stays (fun q hq => by rwa [accept_redis ha] at hq) fun _ =>
      profileOf_congr (accept_users ha), fun i o' q hg hi => ?_, fun i o' hg => ?_⟩
    · rcases busy hi with hi | ⟨rfl, -⟩
      · exact absurd hi (ho.alone o i rfl)
      · rw [Function.update_self] at hg
        cases hg
    · by_cases hn : i = s.threads.length
      · rw [hn, Function.update_self] at hg
        cases hg
      · rw [Function.update_of_ne hn] at hg
        exact h.updated i o' hg
  | @run i c o op k sh r p hi hg allowed he =>
    obtain ⟨a, rfl⟩ := ho.answered i c rfl
    obtain ⟨fresh, row, updated⟩ := h.call hc hi hg allowed he
    refine ⟨fresh, fun j o' q hg' hj => ?_, fun j o' hg' => ?_⟩
    · rcases busy hj with hj | ⟨-, o', hl⟩
      · obtain rfl := alone j i hj ⟨o, op, k, hi⟩
        rw [Function.update_self] at hg'
        simp only [Option.some.injEq, Prod.mk.injEq] at hg'
        exact row q hg'.2
      · cases hl
    · by_cases hn : j = i
      · subst hn
        rw [Function.update_self] at hg'
        simp only [Option.some.injEq, Prod.mk.injEq] at hg'
        exact hg'.1 ▸ updated hg'.2
      · rw [Function.update_of_ne hn] at hg'
        exact h.updated j o' hg'
  | env he =>
    refine ⟨h.fresh.stays (fun q hq => env_redis he hq) fun _ => profileOf_congr (env_users he),
      fun i o q hg hi => ?_, h.updated⟩
    rw [profileOf_congr (env_users he)]
    exact h.seen i o q hg hi
  | kill _ _ => exact absurd rfl (ho.lives _)

/-! ## What the endpoint replies -/

/-- A profile that is cached is the reply, and otherwise the database is asked. -/
theorem getProfile_replies (s : State) (u : Int) (r : Except Err Reply) :
    s.Replies (.http u (.getProfile u)) r ↔
      r = .ok (.profile ((s.shared.redis (.userProfile u)).or (s.shared.db.profileOf u))) := by
  have answer : ∃ n x, service.alone s.threads.length (.ok {}) (.http u (.getProfile u)) n
      (Origin.program (.http u (.getProfile u))) s.shared = some (x, .ret (.ok
        (.profile ((s.shared.redis (.userProfile u)).or (s.shared.db.profileOf u))))) := by
    have program : Origin.program (.http u (.getProfile u)) =
        UsersService.getProfile u >>= fun p => pure (.profile p) := by
      show UsersController.getProfile u u = _
      rw [UsersController.getProfile, validateTokenUser, if_neg (not_not.mpr rfl)]
      rfl
    rw [program]
    cases hc : s.shared.redis (.userProfile u) with
    | some p =>
      refine ⟨1, s.shared, ?_⟩
      simp [Machine.alone, service, exec, Op.run, RedisOp.run, hc, UsersService.getProfile,
        Redis.get, bind, Prog.bind, Prog.perform]
      rfl
    | none =>
      cases hx : s.shared.db.users.find? u with
      | none =>
        refine ⟨2, s.shared, ?_⟩
        simp [Machine.alone, service, exec, Op.run, RedisOp.run, PrismaOp.run, hc, hx,
          UsersService.getProfile, Redis.get, Prisma.userFindById, bind, Prog.bind, Prog.perform,
          Db.profileOf]
        rfl
      | some x =>
        let filled : (k : CacheKey) → Option k.Value :=
          Function.update s.shared.redis (.userProfile u) (some x.profile)
        refine ⟨3, { s.shared with redis := filled }, ?_⟩
        simp [Machine.alone, service, exec, Op.run, RedisOp.run, PrismaOp.run, hc, hx,
          UsersService.getProfile, Redis.get, Prisma.userFindById, bind, Prog.bind, Prog.perform,
          Db.profileOf]
        rfl
  have accepted : (Origin.http u (.getProfile u)).accept s.shared = some s.shared := rfl
  rw [replies_iff accepted]
  constructor
  · rintro ⟨n, x, hx⟩
    obtain ⟨n', x', hx'⟩ := answer
    exact Machine.alone_unique hx hx'
  · rintro rfl
    exact answer

/-- Where operations run one at a time, no profile update of `u` is carried out,
and nothing changes what a lookup would read while the profile is cached, the
endpoint replies what it would reply with an empty cache. -/
theorem profile_cache_transparent_alone (hq : Quiet s) (hp : s.shared.ProfileFresh u)
    (h : Reach (fun s l => ProfilesAlone s l ∧ KeepsProfile u s l) s t) (r : Except Err Reply) :
    (t.Replies (.http u (.getProfile u)) r ↔ t.uncached.Replies (.http u (.getProfile u)) r) ∧
    (t.Replies (.http u (.getProfile u)) r ↔ r = .ok (.profile (t.shared.db.profileOf u))) := by
  have nobody (i) : ¬ s.Busy i := by
    rintro ⟨o, op, k, hi⟩
    rw [hq.threads] at hi
    cases hi
  have start : Transparent u s fun _ => none := by
    refine ⟨hp, fun i o q hg => ?_, fun i o hg => ?_⟩
    · cases hg
    · cases hg
  have knowing := Machine.Reach.knowing (P := fun v => ∀ i j, v.Busy i → v.Busy j → i = j)
    (fun v hv i j hi hj => Machine.Reach.alone (fun v o i hc => hc.1.alone o i rfl) nobody hv hi hj) h
  obtain ⟨g, -, transparent⟩ := Machine.Tracks.invariant (service_sees (fun _ _ hc => hc.1.1) u)
    (.of_nil hq.threads) start (fun v g l w g' hc _ hI hf => hI.step hc.1.1 hc.1.2 hc.2 hf) knowing
  have reply : (t.shared.redis (.userProfile u)).or (t.shared.db.profileOf u) =
      t.shared.db.profileOf u := by
    cases hc : t.shared.redis (.userProfile u) with
    | none => rfl
    | some p => exact (transparent.fresh p hc).symm
  have cached := getProfile_replies t u r
  rw [reply] at cached
  exact ⟨cached.trans (getProfile_replies t.uncached u r).symm, cached⟩

end
def profilesAlone (s : State) : Step → Bool
  | .start (.http _ r) => r.ofProfiles && s.idle
  | .run _ (.ok _) | .env _ => true
  | _ => false

theorem profilesAlone_sound {s : State} {l : Step} (h : profilesAlone s l = true) :
    ProfilesAlone s l := by
  refine ⟨fun o hl => ?_, fun o i hl => ?_, fun i c hl => ?_, fun i hl => ?_⟩
  · subst hl
    cases o with
    | http tok r => exact ⟨tok, r, rfl, ((Bool.and_eq_true _ _).mp h).1⟩
    | delivery m => cases h
  · subst hl
    cases o with
    | http tok r => exact Config.idle_iff.mp ((Bool.and_eq_true _ _).mp h).2 i
    | delivery m => cases h
  · subst hl
    cases c with
    | ok a => exact ⟨a, rfl⟩
    | _ => cases h
  · subst hl
    cases h

/-- Nobody updates a profile, and whoever signs up finds no profile cached. -/
def signsUpUncached (u : Int) (s : State) : Step → Bool
  | .run i _ => s.threads[i]?.all fun th => match th.prog with
    | .call (.prisma (.userUpdate _ _)) _ => !th.origin.updatesProfile
    | .call (.prisma (.userUpsert _ _ _)) _ => (s.shared.redis (.userProfile u)).isNone
    | _ => true
  | _ => true

theorem keepsProfile_of_signsUpUncached {u : Int} {s : State} {l : Step}
    (h : signsUpUncached u s l = true) : KeepsProfile u s l := by
  refine ⟨fun i c tok body client d k x hl hi => ?_, fun i c tok body client id d k x db hl hi => ?_,
    fun i c o email username password k x hl hi _ _ hc => ?_⟩
  · subst hl
    simp [signsUpUncached, hi, Origin.updatesProfile] at h
  · subst hl
    simp [signsUpUncached, hi, Origin.updatesProfile] at h
  · subst hl
    simp only [signsUpUncached, hi, Option.all_some] at h
    rw [Option.isNone_iff_eq_none.mp h] at hc
    cases hc

/-- Alice looks at her profile, deletes the account, signs up under another
name and looks again. -/
def aliceReturns : List Step :=
  .start (.http 1 (.getProfile 1)) :: calls 0 3 ++
  .start (.http 1 (.deleteUser 1)) :: calls 1 4 ++
  .start (.http 0 (.signup ⟨"alice@a", "alicia", "secret"⟩)) :: calls 2 3 ++
  .start (.http 1 (.getProfile 1)) :: calls 3 3

theorem profile_cache_transparent_alone_alice : ∃ t, Reach ProfilesAlone aliceAlone t ∧
    (t.shared.redis (.userProfile 1)).isSome ∧ ∀ r,
      (t.Replies (.http 1 (.getProfile 1)) r ↔ t.uncached.Replies (.http 1 (.getProfile 1)) r) ∧
      (t.Replies (.http 1 (.getProfile 1)) r ↔ r = .ok (.profile (t.shared.db.profileOf 1))) := by
  have h : (service.runsIf .crashed (fun s l => profilesAlone s l && signsUpUncached 1 s l)
      aliceReturns aliceAlone).any (fun t => (t.shared.redis (.userProfile 1)).isSome) = true := by
    decide +kernel
  obtain ⟨t, ht, cached⟩ := Option.any_eq_true _ _ |>.mp h
  have reach : Reach (fun s l => ProfilesAlone s l ∧ KeepsProfile 1 s l) aliceAlone t :=
    Machine.reach_of_runsIf (fun s l hc => by
      obtain ⟨ho, hk⟩ := (Bool.and_eq_true _ _).mp hc
      exact ⟨profilesAlone_sound ho, keepsProfile_of_signsUpUncached hk⟩) ht
  have fresh : aliceAlone.shared.ProfileFresh 1 := fun p hp => by cases hp
  exact ⟨t, reach.mono fun _ _ hc => hc.1, cached,
    fun r => profile_cache_transparent_alone (State.withUsers_quiet _) fresh reach r⟩

/-- After an update the reply has an `updatedAt`, which the database does not show. -/
theorem profile_cache_shows_updatedAt : ∃ t r, Reach ProfilesAlone aliceAlone t ∧ t.idle = true ∧
    t.Replies (.http 1 (.getProfile 1)) r ∧ ¬ t.uncached.Replies (.http 1 (.getProfile 1)) r := by
  have h : (service.runsIf .crashed profilesAlone
      (.start (.http 1 (.updateProfile renameBody plainClient)) :: calls 0 3) aliceAlone).any (fun t =>
        t.idle && (t.shared.redis (.userProfile 1)).any fun p => t.shared.db.profileOf 1 ≠ some p) =
      true := by decide +kernel
  obtain ⟨t, ht, hp⟩ := Option.any_eq_true _ _ |>.mp h
  obtain ⟨idle, stale⟩ := (Bool.and_eq_true _ _).mp hp
  obtain ⟨p, hp, hn⟩ := Option.any_eq_true _ _ |>.mp stale
  have reach := Machine.reach_of_runsIf (fun _ _ => profilesAlone_sound) ht
  refine ⟨t, .ok (.profile (some p)), reach, idle, (getProfile_replies t 1 _).mpr ?_, fun hr => ?_⟩
  · rw [hp]
    rfl
  · have shown := (getProfile_replies (State.uncached t) 1 _).mp hr
    have same : some p = t.shared.db.profileOf 1 := Reply.profile.inj (Except.ok.inj shown)
    exact of_decide_eq_true hn same.symm

end Pactic
