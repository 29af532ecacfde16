import Pactic.Protocol.Calls
import Pactic.Protocol.Messages

/-! # Signups

A signup asks for one row with its email or its username and upserts the row
with its email. Which row it is shown depends on the database, and another
signup may come between the two calls. -/
namespace Pactic
open Keyed Resumption

/-- Where a signup stands: before its check, past it, turned down, or done. -/
inductive Signing where
  | start | passed | refused | done
  deriving DecidableEq

def Origin.signup? : Origin → Option CreateUserDto
  | http _ (.signup b) => some b
  | _ => none

def Op.sparesUsers : Op → Bool
  | .prisma (.userFindFirst _ _) | .prisma (.userUpsert _ _ _) | .prisma (.userUpdate _ _) => false
  | _ => true

def Origin.AllowsUsers (o : Origin) (p : Signing) : Op → Prop
  | .prisma (.userFindFirst e n) =>
    ∃ b, o.signup? = some b ∧ e = b.email ∧ n = b.username ∧ p = .start
  | .prisma (.userUpsert e n _) =>
    ∃ b, o.signup? = some b ∧ e = b.email ∧ n = b.username ∧ p = .passed
  | .prisma (.userUpdate _ _) => False
  | _ => p ≠ .refused

def Signing.next (p : Signing) : (o : Op) → Except Err o.Res → Signing
  | .prisma (.userFindFirst _ _), .ok u =>
    if u.any (·.deletedAt = none) then .refused else .passed
  | .prisma (.userUpsert _ _ _), _ => .done
  | _, _ => p

/-- The calls that concern the users table. -/
def accounts (o : Origin) : Monitor Op Op.Res Err Signing := ⟨o.AllowsUsers, Signing.next⟩

def signupConflict : Err := .conflict "User with this email or username already exists"

/-- A signup that was turned down ends in the conflict. -/
def SignupEnds (o : Origin) (r : Except Err Reply) (p : Signing) : Prop :=
  o.signup?.isSome = true → p = .refused → r = .error signupConflict

/-! ## The programs -/

section
variable {o : Origin} {α : Type}

theorem sparesUsers_still {op : Op} (h : op.sparesUsers = true) :
    (accounts o).allow .start op ∧ ∀ r, (accounts o).next .start op r = .start := by
  have hne : Signing.start ≠ .refused := by decide
  cases op with
  | prisma op => cases op <;> first | exact ⟨hne, fun _ => rfl⟩ | cases h
  | _ => exact ⟨hne, fun _ => rfl⟩

theorem sparesUsers_of_protocol {p : Local} {op : Op} (h : o.Allows p op) :
    op.sparesUsers = true := by
  cases op with
  | prisma op => cases op <;> first | rfl | exact h.elim
  | _ => rfl

/-- Calls that touch no user. -/
abbrev Spares (c : Proc α) : Prop := c.Only fun op => op.sparesUsers = true

theorem reads_spares {c : Proc α} (h : c.Only fun op => op.reads = true) : Spares c :=
  h.mono fun op hop => by
    cases op with
    | prisma op => cases op <;> first | rfl | cases hop
    | _ => rfl

theorem login_spares (b ip ua) : Spares (UsersController.login b ip ua) :=
  .bind (reads_spares (login_reads b ip ua)) fun _ => trivial

theorem getProfile_spares (u tok) : Spares (UsersController.getProfile u tok) := by
  refine .bind ?_ fun _ => .bind (reads_spares (getProfile_reads u)) fun _ => trivial
  unfold validateTokenUser
  split <;> exact trivial

/-- The signup upserts only when it was not shown a live row. -/
theorem signup_keeps (tok : Int) (b : CreateUserDto) :
    (accounts (.http tok (.signup b))).wp (UsersController.signup b)
      (SignupEnds (.http tok (.signup b))) .start := by
  have goesOn {r} {p : Signing} (h : p = .start ∨ p = .passed ∨ p = .done) :
      SignupEnds (.http tok (.signup b)) r p := fun _ hp => by
    rcases h with h | h | h <;> rw [h] at hp <;> cases hp
  have passed : Signing.passed ≠ .refused := by decide
  refine (Monitor.wp_bind _ _ _ _ _).mpr ((Monitor.wp_bind _ _ _ _ _).mpr
    ⟨⟨b, rfl, rfl, rfl, rfl⟩, forall_except.mpr ⟨fun found => ?_, fun e => goesOn (.inl rfl)⟩⟩)
  have next : (accounts (.http tok (.signup b))).next .start
      (.prisma (.userFindFirst b.email b.username)) (.ok found) =
      if found.any (·.deletedAt = none) then .refused else .passed := rfl
  simp only [Monitor.wp, next]
  split
  · next u hu =>
    have live : found.any (·.deletedAt = none) = true := by
      rw [Option.filter_eq_some_iff] at hu
      rw [hu.1]; exact hu.2
    rw [if_pos live]
    exact fun _ _ => rfl
  · next hu =>
    have dead : ¬ found.any (·.deletedAt = none) = true := by
      cases found with
      | none => intro ha; cases ha
      | some u => simpa using hu
    rw [if_neg dead]
    refine (Monitor.wp_perform_bind _ _ _ _ _).mpr
      ⟨passed, fun p => ?_, fun e => goesOn (.inr (.inl rfl))⟩
    refine (Monitor.wp_perform_bind _ _ _ _ _).mpr ⟨⟨b, rfl, rfl, rfl, rfl⟩,
      fun u => goesOn (.inr (.inr rfl)), fun e => goesOn (.inr (.inr rfl))⟩

end

/-- Everything but the endpoints that change an account on purpose. -/
def Step.sparesAccounts : Step → Bool
  | .start (.http _ (.updateProfile _ _)) | .start (.http _ (.deleteUser _)) => false
  | _ => true

theorem accounts_keep {o : Origin} (h : Step.sparesAccounts (.start o) = true)
    (hd : ∀ m, o = .delivery m → (deliver m).isSome = true) :
    (accounts o).wp o.program (SignupEnds o) .start := by
  have spares (hs : o.signup? = none) (hp : Spares o.program) :
      (accounts o).wp o.program (SignupEnds o) .start :=
    Monitor.wp_mono _ (Monitor.wp_of_only _ (fun _ => sparesUsers_still) hp) fun r p _ hb => by
      rw [hs] at hb; cases hb
  have wallets (hw : o.ofWallets = true) : Spares o.program :=
    Monitor.only_of_wp (protocol o) (fun _ _ => sparesUsers_of_protocol) (Origin.program_keeps hw)
  cases o with
  | delivery m => exact spares rfl (wallets (hd m rfl))
  | http tok r => cases r with
    | signup b => exact signup_keeps tok b
    | login b ip ua => exact spares rfl (login_spares b ip ua)
    | getProfile u => exact spares rfl (getProfile_spares u tok)
    | updateProfile _ _ => cases h
    | deleteUser _ => cases h
    | _ => exact spares rfl (wallets rfl)

/-! ## The users table -/

def User.Matches (u : User) (b : CreateUserDto) : Prop := u.email = b.email ∨ u.username = b.username

instance (u : User) (b : CreateUserDto) : Decidable (u.Matches b) := inferInstanceAs (Decidable (_ ∨ _))

/-- A live account has this email. -/
def Shared.LiveEmail (sh : Shared) (email : String) : Prop :=
  ∃ u ∈ sh.db.users.rows, u.email = email ∧ u.deletedAt = none

/-- After the check of thread `i`, a signup has upserted this email. -/
def Shared.SignedSince (sh : Shared) (i : Nat) (email : String) : Prop :=
  ∃ before x since, sh.journal = before ++ x :: since ∧ x.thread = i ∧
    x.event = .signupChecked email ∧ ∃ y ∈ since, y.event = .signedUp email

/-- The row a check is shown. -/
def Shared.shown (sh : Shared) (b : CreateUserDto) (pick : Nat) : Option User :=
  (sh.db.users.rows.filter fun u => u.email = b.email ∨ u.username = b.username)[pick]?

/-- No check is shown a deleted row while a live one matches, and no signup
upserts an email that another has upserted since its check. -/
structure Careful (s : State) (l : Step) : Prop where
  endpoints : l.sparesAccounts = true
  check : ∀ i a tok b k u, l = .run i (.ok a) →
    s.threads[i]? = some
      ⟨.http tok (.signup b), .call (.prisma (.userFindFirst b.email b.username)) k⟩ →
    s.shared.shown b a.pick = some u →
    (∃ x ∈ s.shared.db.users.rows, x.Matches b ∧ x.deletedAt = none) → u.deletedAt = none
  upsert : ∀ i c tok b p k, l = .run i c → c ≠ .fail →
    s.threads[i]? = some
      ⟨.http tok (.signup b), .call (.prisma (.userUpsert b.email b.username p)) k⟩ →
    ¬ s.shared.SignedSince i b.email

section
variable {sh sh' : Shared} {i : Nat} {o : Origin} {c : Choice} {b : CreateUserDto}

theorem Signing.next_spares {p : Signing} {op : Op} {r} (h : op.sparesUsers = true) :
    p.next op r = p := by
  cases op with
  | prisma op => cases op <;> first | rfl | cases h
  | _ => rfl

theorem exec_spares {op : Op} {r} (hop : op.sparesUsers = true)
    (h : exec c i o op sh = some (sh', r)) : sh'.db.users = sh.db.users := by
  rcases exec_cases h with ⟨rfl, -⟩ | ⟨a, r₀, hrun, -⟩
  · cases op with
    | tx op => cases op <;> rfl
    | _ => rfl
  · cases op with
    | redis op => cases hrun; rfl
    | rabbit op => cases hrun; rfl
    | library op => cases hrun; rfl
    | tx op => exact (TxOp.run_frame hrun).2.2.1
    | prisma op =>
      cases op with
      | userFindFirst _ _ => cases hop
      | userUpsert _ _ _ => cases hop
      | userUpdate _ _ => cases hop
      | walletRequestCreate row =>
        simp only [Op.run, PrismaOp.run] at hrun
        split at hrun <;> cases hrun <;> rfl
      | walletCreate u c =>
        simp only [Op.run, PrismaOp.run] at hrun
        split at hrun
        · cases hrun; rfl
        · split at hrun <;> cases hrun <;> rfl
      | _ => cases hrun; rfl

/-- A check that is answered notes itself and shows one of the matching rows. -/
theorem exec_check {e n : String} {r} (h : exec c i o (.prisma (.userFindFirst e n)) sh = some (sh', r)) :
    sh'.db.users = sh.db.users ∧
    ((∃ es, sh'.journal = sh.journal ++ es) ∧ (∀ a, c ≠ .ok a) ∧ r = .error .unavailable ∨
    ∃ a found, c = .ok a ∧ sh'.journal = sh.journal ++ [⟨i, o, .signupChecked e⟩] ∧ r = .ok found ∧
      (found = none ∧ (∀ u ∈ sh.db.users.rows, ¬ (u.email = e ∨ u.username = n)) ∨
        ∃ u, found = some u ∧
          (sh.db.users.rows.filter fun u => u.email = e ∨ u.username = n)[a.pick]? = some u)) := by
  have run {a r₀} (hrun : (PrismaOp.userFindFirst e n).run a i o sh = some (sh', r₀)) :
      sh' = sh.note i o (.signupChecked e) ∧ ∃ found, r₀ = .ok found ∧
      (found = none ∧ (∀ u ∈ sh.db.users.rows, ¬ (u.email = e ∨ u.username = n)) ∨
        ∃ u, found = some u ∧
          (sh.db.users.rows.filter fun u => u.email = e ∨ u.username = n)[a.pick]? = some u) := by
    simp only [PrismaOp.run] at hrun
    split at hrun
    · next hnone =>
      cases hrun
      refine ⟨rfl, none, rfl, .inl ⟨rfl, fun u hu => ?_⟩⟩
      simpa using List.filter_eq_nil_iff.mp hnone u hu
    · obtain ⟨u, hu, hres⟩ := Option.map_eq_some_iff.mp hrun
      cases hres
      exact ⟨rfl, some u, rfl, .inr ⟨u, rfl, hu⟩⟩
  cases c with
  | fail =>
    cases h
    exact ⟨rfl, .inl ⟨⟨[], (List.append_nil _).symm⟩, fun a ha => (by cases ha), rfl⟩⟩
  | failAfter a =>
    simp only [exec, Option.map_eq_some_iff] at h
    obtain ⟨⟨sh₁, r₀⟩, hrun, he⟩ := h
    cases he
    obtain ⟨rfl, -⟩ := run hrun
    exact ⟨rfl, .inl ⟨⟨_, rfl⟩, fun a ha => (by cases ha), rfl⟩⟩
  | ok a =>
    obtain ⟨rfl, found, rfl, hfound⟩ := run h
    exact ⟨rfl, .inr ⟨a, found, rfl, rfl, rfl, hfound⟩⟩

/-- What an upsert of this email does to the users. -/
structure Upserted (e : String) (t t' : Table User.id) : Prop where
  others : ∀ x ∈ t.rows, x.email ≠ e → x ∈ t'.rows
  back : ∀ x ∈ t'.rows, x ∈ t.rows ∨ x.email = e

theorem upserted_put {t : Table User.id} {e : String} {u u' : User}
    (hu : t.rows.find? (fun u => u.email = e) = some u) (hid : u'.id = u.id)
    (he : u'.email = e) : Upserted e t (t.put u') := by
  have hmem := List.mem_of_find?_eq_some hu
  have hemail : u.email = e := by simpa using List.find?_some hu
  constructor
  · intro x hx hne
    refine Table.mem_put.mpr (.inl ⟨hx, fun hk => hne ?_⟩)
    rw [Table.eq_of_key t hx hmem (hk.trans hid), hemail]
  · intro x hx
    rcases Table.mem_put.mp hx with ⟨hx, -⟩ | ⟨rfl, -⟩
    · exact .inl hx
    · exact .inr he

theorem upserted_insert {t t' : Table User.id} {e : String} {u : User}
    (ins : t.insert? u = some t') (he : u.email = e) : Upserted e t t' := by
  have rows := (Table.insert?_eq_some.mp ins).2
  constructor
  · intro x hx _
    rw [rows]; exact List.mem_append_left _ hx
  · intro x hx
    rw [rows, List.mem_append, List.mem_singleton] at hx
    rcases hx with hx | rfl
    · exact .inl hx
    · exact .inr he

theorem exec_upsert {e n p : String} {r}
    (h : exec c i o (.prisma (.userUpsert e n p)) sh = some (sh', r)) :
    sh'.db.users = sh.db.users ∧ sh'.journal = sh.journal ∨
    c ≠ .fail ∧ sh'.journal = sh.journal ++ [⟨i, o, .signedUp e⟩] ∧
      Upserted e sh.db.users sh'.db.users := by
  have run (a) {r₀} (hc : c ≠ .fail)
      (hrun : (PrismaOp.userUpsert e n p).run a i o sh = some (sh', r₀)) :
      sh'.db.users = sh.db.users ∧ sh'.journal = sh.journal ∨
      c ≠ .fail ∧ sh'.journal = sh.journal ++ [⟨i, o, .signedUp e⟩] ∧
        Upserted e sh.db.users sh'.db.users := by
    simp only [PrismaOp.run] at hrun
    split at hrun
    · next u hu =>
      cases hrun
      exact .inr ⟨hc, rfl, upserted_put hu rfl (by simpa using List.find?_some hu)⟩
    · split at hrun
      · next t ins => cases hrun; exact .inr ⟨hc, rfl, upserted_insert ins rfl⟩
      · cases hrun; exact .inl ⟨rfl, rfl⟩
  cases c with
  | fail => cases h; exact .inl ⟨rfl, rfl⟩
  | failAfter a =>
    simp only [exec, Option.map_eq_some_iff] at h
    obtain ⟨⟨sh₁, r₀⟩, hrun, he⟩ := h
    cases he
    exact run a (fun hc => by cases hc) hrun
  | ok a => exact run a (fun hc => by cases hc) h

end

/-! ## Signups in progress -/

abbrev Signers := Machine.Ghost Origin Signing

/-- A signup past its check has noted it, and a live account with its email was
signed up since. -/
structure Signups (sh : Shared) (g : Signers) : Prop where
  checked : ∀ {i o b}, g i = some (o, .passed) → o.signup? = some b →
    ∃ x ∈ sh.journal, x.thread = i ∧ x.event = .signupChecked b.email
  clear : ∀ {i o b}, g i = some (o, .passed) → o.signup? = some b → sh.LiveEmail b.email →
    sh.SignedSince i b.email

section
variable {sh sh' : Shared} {g g' : Signers} {i : Nat} {o : Origin} {p p' : Signing}
  {b : CreateUserDto}

theorem Shared.SignedSince.append {email} (h : sh.SignedSince i email)
    (hj : ∃ es, sh'.journal = sh.journal ++ es) : sh'.SignedSince i email := by
  obtain ⟨before, x, since, hx, ht, he, y, hy, hs⟩ := h
  obtain ⟨es, hj⟩ := hj
  exact ⟨before, x, since ++ es, by simp [hj, hx], ht, he, y, List.mem_append_left _ hy, hs⟩

/-- No account changes and nobody passes a check. -/
theorem Signups.weaken (h : Signups sh g) (hu : sh'.db.users = sh.db.users)
    (hj : ∃ es, sh'.journal = sh.journal ++ es)
    (hg : ∀ k o, g' k = some (o, .passed) → g k = some (o, .passed)) : Signups sh' g' where
  checked hk hb := by
    obtain ⟨x, hx, rest⟩ := h.checked (hg _ _ hk) hb
    obtain ⟨es, hj⟩ := hj
    exact ⟨x, hj ▸ List.mem_append_left _ hx, rest⟩
  clear hk hb hl := by
    refine (h.clear (hg _ _ hk) hb ?_).append hj
    rwa [Shared.LiveEmail, hu] at hl

theorem passed_of_update (hp : p ≠ .passed) (k : Nat) (o' : Origin)
    (h : Function.update g i (some (o, p)) k = some (o', .passed)) : k ≠ i ∧ g k = some (o', .passed) := by
  by_cases hk : k = i
  · subst hk
    rw [Function.update_self] at h
    cases h; exact absurd rfl hp
  · rw [Function.update_of_ne hk] at h
    exact ⟨hk, h⟩

/-- A check that is passed has found no live account. -/
theorem Signups.pass (h : Signups sh g) (hb : o.signup? = some b)
    (hu : sh'.db.users = sh.db.users)
    (hj : sh'.journal = sh.journal ++ [⟨i, o, .signupChecked b.email⟩])
    (dead : ¬ sh.LiveEmail b.email) :
    Signups sh' (Function.update g i (some (o, .passed))) where
  checked {k o' b'} hk hb' := by
    by_cases hki : k = i
    · subst hki
      rw [Function.update_self] at hk
      cases hk
      rw [hb] at hb'; cases hb'
      exact ⟨_, hj ▸ List.mem_append_right _ (.head _), rfl, rfl⟩
    · rw [Function.update_of_ne hki] at hk
      obtain ⟨x, hx, rest⟩ := h.checked hk hb'
      exact ⟨x, hj ▸ List.mem_append_left _ hx, rest⟩
  clear {k o' b'} hk hb' hl := by
    rw [Shared.LiveEmail, hu] at hl
    by_cases hki : k = i
    · subst hki
      rw [Function.update_self] at hk
      cases hk
      rw [hb] at hb'; cases hb'
      exact absurd hl dead
    · rw [Function.update_of_ne hki] at hk
      exact (h.clear hk hb' hl).append ⟨_, hj⟩

/-- An upsert is news to every other signup of the email. -/
theorem Signups.upsert {e : String} (h : Signups sh g)
    (hj : sh'.journal = sh.journal ++ [⟨i, o, .signedUp e⟩])
    (hu : Upserted e sh.db.users sh'.db.users) :
    Signups sh' (Function.update g i (some (o, .done))) where
  checked {k o' b'} hk hb' := by
    obtain ⟨-, hk⟩ := passed_of_update (by decide) k o' hk
    obtain ⟨x, hx, rest⟩ := h.checked hk hb'
    exact ⟨x, hj ▸ List.mem_append_left _ hx, rest⟩
  clear {k o' b'} hk hb' hl := by
    obtain ⟨-, hk⟩ := passed_of_update (by decide) k o' hk
    obtain ⟨x, hx, he, hd⟩ := hl
    rcases hu.back x hx with hx | hxe
    · exact (h.clear hk hb' ⟨x, hx, he, hd⟩).append ⟨_, hj⟩
    · obtain ⟨y, hy, ht, hc⟩ := h.checked hk hb'
      obtain ⟨before, since, hs⟩ := List.append_of_mem hy
      refine ⟨before, y, since ++ [⟨i, o, .signedUp e⟩], by simp [hj, hs], ht, hc, _,
        List.mem_append_right _ (.head _), ?_⟩
      rw [← hxe, he]

theorem accept_users (h : o.accept sh = some sh') : sh'.db.users = sh.db.users := by
  cases o with
  | http tok r => rw [(Origin.accept_http h).2]
  | delivery m => rw [(Origin.accept_delivery h).2.2]

theorem env_users {e : EnvStep} (h : e.run sh = some sh') : sh'.db.users = sh.db.users := by
  cases e with
  | expire k => cases h; rfl
  | tick => cases h; rfl
  | _ =>
    simp only [EnvStep.run] at h
    split at h <;> cases h; rfl

theorem signup_of_signup? (h : o.signup? = some b) : ∃ tok, o = .http tok (.signup b) := by
  cases o with
  | delivery m => cases h
  | http tok r => cases r <;> cases h; exact ⟨tok, rfl⟩

/-- The check of a signup: it is turned down, or no live account matches. -/
theorem Careful.checks {s : State} {c : Choice} {tok k} {r : Except Err (Option User)}
    (hc : Careful s (.run i c)) (ht : s.threads[i]? =
      some ⟨.http tok (.signup b), .call (.prisma (.userFindFirst b.email b.username)) k⟩)
    (he : exec c i (.http tok (.signup b)) (.prisma (.userFindFirst b.email b.username)) s.shared =
      some (sh', r)) :
    sh'.db.users = s.shared.db.users ∧ ((∃ es, sh'.journal = s.shared.journal ++ es) ∧
      ((∀ a, c ≠ .ok a) ∧ r = .error .unavailable ∨
        ∃ u, r = .ok (some u) ∧ u.deletedAt = none) ∨
    sh'.journal = s.shared.journal ++ [⟨i, .http tok (.signup b), .signupChecked b.email⟩] ∧
      (∃ found, r = .ok found ∧ found.any (·.deletedAt = none) = false) ∧
      ∀ x ∈ s.shared.db.users.rows, x.Matches b → x.deletedAt ≠ none) := by
  obtain ⟨hu, ⟨hj, hr⟩ | ⟨a, found, rfl, hj, hr, hfound⟩⟩ := exec_check he
  · exact ⟨hu, .inl ⟨hj, .inl hr⟩⟩
  · refine ⟨hu, ?_⟩
    rcases hfound with ⟨rfl, hnone⟩ | ⟨u, rfl, hu⟩
    · exact .inr ⟨hj, ⟨none, hr, rfl⟩, fun x hx hm => absurd hm (hnone x hx)⟩
    · by_cases hd : u.deletedAt = none
      · exact .inl ⟨⟨_, hj⟩, .inr ⟨u, hr, hd⟩⟩
      · refine .inr ⟨hj, ⟨some u, hr, by simpa using hd⟩, fun x hx hm hl => hd ?_⟩
        exact hc.check i a tok b k u rfl ht hu ⟨x, hx, hm, hl⟩

end

theorem signups_stable (K : Shared → Signers → Prop) :
    Machine.Stable service accounts (fun _ => .start) Careful K Signups where
  start s o sh g i _ _ _ h hg ha := by
    refine h.weaken (accept_users ha) ⟨[], by simp [(Origin.accept_same ha).journal]⟩ fun k o' hk => ?_
    exact (passed_of_update (by decide) k o' hk).2
  env s e sh g _ _ h he :=
    h.weaken (env_users he) ⟨[], by simp [(EnvStep.run_same he).journal]⟩ fun _ _ => id
  kill s i g _ _ h := h.weaken rfl ⟨[], (List.append_nil _).symm⟩ fun _ _ => id
  run s i o op k c sh r g p hc ht _ h hg ha he := by
    by_cases hop : op.sparesUsers = true
    · have hu := exec_spares hop he
      rw [show (accounts o).next p op r = p from Signing.next_spares hop, ← hg,
        Function.update_eq_self]
      exact h.weaken hu (exec_journal he) fun _ _ => id
    cases op with
    | prisma op =>
      cases op with
      | userFindFirst e n =>
        obtain ⟨b, hb, rfl, rfl, rfl⟩ := ha
        obtain ⟨tok, rfl⟩ := signup_of_signup? hb
        obtain ⟨hu, ⟨hj, hr⟩ | ⟨hj, ⟨found, rfl, hnone⟩, dead⟩⟩ := hc.checks ht he
        · refine h.weaken hu hj fun k o' hk => (passed_of_update ?_ k o' hk).2
          rcases hr with ⟨-, rfl⟩ | ⟨u, rfl, hd⟩
          · exact nofun
          · simp [accounts, Signing.next, hd]
        · have next : (accounts (.http tok (.signup b))).next .start
              (.prisma (.userFindFirst b.email b.username)) (.ok found) = .passed := by
            simp only [accounts, Signing.next, hnone]; rfl
          rw [next]
          exact h.pass hb hu hj fun ⟨x, hx, he, hl⟩ => dead x hx (.inl he) hl
      | userUpsert e n pw =>
        have next : (accounts o).next p (.prisma (.userUpsert e n pw)) r = .done := rfl
        rw [next]
        rcases exec_upsert he with ⟨hu, hj⟩ | ⟨-, hj, hu⟩
        · exact h.weaken hu ⟨[], by rw [hj, List.append_nil]⟩ fun k o' hk =>
            (passed_of_update (by decide) k o' hk).2
        · exact h.upsert hj hu
      | userUpdate _ _ => exact ha.elim
      | _ => exact absurd rfl hop
    | _ => exact absurd rfl hop

theorem careful_obeys : Machine.Obeys service accounts SignupEnds (fun _ => .start) Careful := by
  intro s o sh hc ha
  refine accounts_keep hc.endpoints fun m ho => ?_
  subst ho
  exact (Origin.accept_delivery ha).2.1

/-- A signup that was turned down makes no further call. -/
theorem refused_ends {o : Origin} {prog : Proc Reply} (ho : o.signup?.isSome = true)
    (h : (accounts o).wp prog (SignupEnds o) .refused) : prog = .ret (.error signupConflict) := by
  cases prog with
  | ret r => exact congrArg _ (h ho rfl)
  | call op k =>
    have allowed : o.AllowsUsers .refused op := h.1
    cases op with
    | prisma op =>
      cases op with
      | userFindFirst e n => obtain ⟨_, -, -, -, hp⟩ := allowed; cases hp
      | userUpsert e n pw => obtain ⟨_, -, -, -, hp⟩ := allowed; cases hp
      | userUpdate _ _ => exact allowed.elim
      | _ => exact absurd rfl allowed
    | _ => exact absurd rfl allowed

/-- Every step spares the live accounts. -/
theorem Careful.keeps {s t : State} {l : Step} {g : Signers} (hc : Careful s l)
    (ht : Machine.Tracks .crashed accounts SignupEnds s.threads g) (signups : Signups s.shared g)
    (hs : step s l = some t) :
    ∀ x ∈ s.shared.db.users.rows, x.deletedAt = none → x ∈ t.shared.db.users.rows := by
  have same {t : State} (hu : t.shared.db.users = s.shared.db.users) :
      ∀ x ∈ s.shared.db.users.rows, x.deletedAt = none → x ∈ t.shared.db.users.rows :=
    fun x hx _ => hu ▸ hx
  cases Machine.step_fires hs with
  | start ha => exact same (accept_users ha)
  | env he => exact same (env_users he)
  | kill _ => exact same rfl
  | @run i c o op k sh r hi he =>
    by_cases hop : op.sparesUsers = true
    · exact same (exec_spares hop he)
    obtain ⟨p, hg, allowed, -⟩ := ht.called hi
    cases op with
    | prisma op =>
      cases op with
      | userFindFirst e n => exact same (exec_check he).1
      | userUpsert e n pw =>
        obtain ⟨b, hb, rfl, rfl, rfl⟩ := allowed
        obtain ⟨tok, rfl⟩ := signup_of_signup? hb
        rcases exec_upsert he with ⟨hu, -⟩ | ⟨hne, -, hu⟩
        · exact same hu
        · intro x hx hl
          refine hu.others x hx fun hxe => hc.upsert i c tok b pw k rfl hne hi ?_
          exact signups.clear hg rfl ⟨x, hx, hxe, hl⟩
      | userUpdate _ _ => exact allowed.elim
      | _ => exact absurd rfl hop
    | _ => exact absurd rfl hop

/-- While no check is shown a deleted row in place of a live one and no signup
comes between another's check and its upsert, no step changes a live account,
and a signup that meets one in its check leaves the users as they are and throws
the conflict. -/
theorem signup_spares_live_accounts {s t u : State} {l : Step} (hq : Quiet s)
    (h : Reach Careful s t) (hc : Careful t l) (hs : step t l = some u) :
    (∀ x ∈ t.shared.db.users.rows, x.deletedAt = none → x ∈ u.shared.db.users.rows) ∧
    ∀ i a tok b k, l = .run i (.ok a) →
      t.threads[i]? = some
        ⟨.http tok (.signup b), .call (.prisma (.userFindFirst b.email b.username)) k⟩ →
      (∃ x ∈ t.shared.db.users.rows, x.Matches b ∧ x.deletedAt = none) →
      u.shared.db.users = t.shared.db.users ∧
      u.threads[i]? = some ⟨.http tok (.signup b), .ret (.error signupConflict)⟩ := by
  have start : Signups s.shared fun _ => none := ⟨nofun, nofun⟩
  obtain ⟨g, ht, signups⟩ := (signups_stable _).invariant careful_obeys (.of_nil hq.threads) start h
  refine ⟨hc.keeps ht signups hs, fun i a tok b k hl hi live => ?_⟩
  subst hl
  obtain ⟨sh, r, he, rfl⟩ := (Machine.step_run hi).mp hs
  obtain ⟨p, hg, allowed, rest⟩ := ht.called hi
  obtain ⟨-, -, -, -, rfl⟩ := allowed
  obtain ⟨hu, ⟨-, ⟨hne, -⟩ | ⟨v, rfl, hd⟩⟩ | ⟨-, -, dead⟩⟩ := hc.checks hi he
  · exact absurd rfl (hne a)
  · have rest : (accounts (.http tok (.signup b))).wp (k (.ok (some v)))
        (SignupEnds (.http tok (.signup b))) (Signing.next .start
          (.prisma (.userFindFirst b.email b.username)) (.ok (some v))) := rest (.ok (some v))
    have refused : Signing.next .start (.prisma (.userFindFirst b.email b.username))
        (.ok (some v)) = .refused := by simp [Signing.next, hd]
    rw [refused] at rest
    have hlt := (List.getElem?_eq_some_iff.mp hi).1
    exact ⟨hu, by simp [hlt, refused_ends rfl rest]⟩
  · obtain ⟨x, hx, hm, hl⟩ := live
    exact absurd hl (dead x hx hm)

/-- A quiet service with these users. -/
def State.withUsers (users : Table User.id) : State :=
  { State.empty with shared.db.users := users }

theorem State.withUsers_quiet (users : Table User.id) : Quiet (State.withUsers users) :=
  ⟨rfl, fun _ => rfl, fun _ => rfl, rfl, rfl⟩

def deletedBob : User := ⟨1, "bob@a", "bob", "b", 0, 0, some 1⟩

def liveAlice : User := ⟨2, "alice@a", "alice", "a", 0, 0, none⟩

/-- Somebody signs up with Alice's email and Bob's username. -/
def signupAsBob : CreateUserDto := ⟨"alice@a", "bob", "secret"⟩

theorem signup_spares_live_accounts_alice :
    ∃ t u, Reach Careful (State.withUsers ⟨[liveAlice], by decide⟩) t ∧
      step t (.run 0 (.ok {})) = some u ∧
      u.threads[0]? = some ⟨.http 0 (.signup signupAsBob), .ret (.error signupConflict)⟩ := by
  let s := State.withUsers ⟨[liveAlice], by decide⟩
  let t : State := { s with
    threads := [⟨.http 0 (.signup signupAsBob), UsersController.signup signupAsBob⟩] }
  have first : step s (.start (.http 0 (.signup signupAsBob))) = some t := by
    simp only [step, Machine.step, service, Origin.accept]
    rw [if_pos (by decide)]
    rfl
  have careful : Careful s (.start (.http 0 (.signup signupAsBob))) := by
    refine ⟨rfl, fun i a tok b k u hl => ?_, fun i c tok b p k hl => ?_⟩
    · cases hl
    · cases hl
  have reach : Reach Careful s t := Machine.Reach.refl.tail careful first
  have last : Careful t (.run 0 (.ok {})) := by
    refine ⟨rfl, fun i a tok b k u hl hi hu _ => ?_, fun i c tok b p k hl _ hi => ?_⟩
    · cases hl
      cases hi
      cases hu
      rfl
    · cases hl
      cases hi
  obtain ⟨u, hu⟩ : ∃ u, step t (.run 0 (.ok {})) = some u := ⟨_, rfl⟩
  exact ⟨t, u, reach, hu, ((signup_spares_live_accounts (State.withUsers_quiet _) reach last hu).2
    0 {} 0 signupAsBob _ rfl rfl ⟨liveAlice, .head _, .inl rfl, rfl⟩).2⟩

/-- The check is shown Bob's deleted row, and the upsert takes Alice's account. -/
theorem signup_takes_live_account : ∃ t,
    Reach (fun _ l => l.sparesAccounts = true)
      (State.withUsers ⟨[deletedBob, liveAlice], by decide⟩) t ∧
    liveAlice ∉ t.shared.db.users.rows := by
  have h : (runSteps (.start (.http 0 (.signup signupAsBob)) :: calls 0 3)
      (State.withUsers ⟨[deletedBob, liveAlice], by decide⟩)).any (fun t =>
        liveAlice ∉ t.shared.db.users.rows) = true := by decide +kernel
  obtain ⟨t, ht, hp⟩ := runSteps_any h
  have spares : ∀ l ∈ (.start (.http 0 (.signup signupAsBob)) :: calls 0 3 : List Step),
      l.sparesAccounts = true := by decide
  exact ⟨t, Machine.reach_of_runs (fun l hl _ => spares l hl) ht, of_decide_eq_true hp⟩

end Pactic
