import Pactic.Lib.Copies
import Pactic.Wallets.ListRaces

/-! # Wallet lists and the order of calls

The order in which the calls of a run are made decides what the cached list of a
user has. A log counts the changes of the user's rows and keeps how many of them
the entry has and how many each thread has seen. -/
namespace Pactic
open Keyed Resumption

/-- How many changes of the rows thread `i` has in its list once it has looked. A
thread that has added a wallet and finds the entry puts the wallet on top of it:
nothing is missing then if the entry lacks just this wallet. -/
def listHeld (u : Int) (k : Copies) (i : Nat) : Op → Option Nat
  | .prisma (.walletFindMany v) => if v = u then some k.changes else k.held i
  | .redis (.get (.userWallets v)) =>
    if v = u then (k.held i).filter fun n => k.kept = some (n - 1) ∧ 0 < n else k.held i
  | _ => k.held i

/-- How many of them the entry has once thread `i` has made this call. -/
def listKept (u : Int) (k : Copies) (i : Nat) : Choice → Op → Option Nat
  | .fail, _ => k.kept
  | _, .redis (.set (.userWallets v) _) => if v = u then k.held i else k.kept
  | _, _ => k.kept

/-- The copies of the rows of a user: the entry and the lists of the threads. -/
def listCopies (u : Int) (k : Copies) (s : State) (l : Step) (t : State) : Copies :=
  let noted : Copies := match l with
    | .run i c => match s.calling i with
      | some op => if t.shared.walletsOf u = s.shared.walletsOf u
          then k.copy i (listHeld u k i op) (listKept u k i c op) else k.change i
      | none => k
    | _ => k
  noted.look (t.shared.cachedList u).isSome

/-- The list a thread caches has been made since the last change of the rows.
Nothing goes wrong in a thread that has changed a wallet while the entry lacks a
change, and no answer to a change is lost. -/
structure InOrder (u : Int) (k : Copies) (s : State) (l : Step) : Prop where
  set : ∀ i c ws, l = .run i c → c ≠ .fail →
    s.calling i = some (.redis (.set (.userWallets u) ws)) → k.Fresh i
  wrong : ∀ i, s.GoesWrong l i → s.shared.Wrote i → k.Settled
  lost : ∀ i a op, l = .run i (.failAfter a) → s.calling i = some op → op.writesWallets = false

/-! ## What is logged is so -/

/-- The list a thread is left with has the first `n` changes; `rows n` is what
the rows were after them. -/
def Listing.Has (rows : Nat → List Wallet) (n : Nat) : Listing → Prop
  | filling ws | prepending ws => ws.Perm (rows n)
  | created w => 0 < n ∧ (w :: rows (n - 1)).Perm (rows n)
  | _ => True

/-- The table, the entry and the lists of the threads have the changes that the
log says they have. -/
structure ListsTold (u : Int) (rows : Nat → List Wallet) (k : Copies) (sh : Shared)
    (g : Machine.Ghost Origin Listing) : Prop where
  table : (sh.walletsOf u).Perm (rows k.changes)
  entry : ∀ {ws}, sh.cachedList u = some ws → ∃ n ≤ k.changes, k.kept = some n ∧ ws.Perm (rows n)
  bound : ∀ {i n}, k.held i = some n → n ≤ k.changes
  held : ∀ {i q}, g i = some q → ∀ n, k.held i = some n → q.2.Has rows n

section
variable {u : Int} {k : Copies} {rows rows' : Nat → List Wallet} {s t : State} {l : Step} {n : Nat}
  {sh sh' : Shared} {g g' : Machine.Ghost Origin Listing} {i : Nat} {o : Origin} {c : Choice}
  {op : Op} {f : Except Err op.Res → Proc Reply} {r : Except Err op.Res} {x : op.Res} {p : Listing}

theorem Listing.Has.congr (h : p.Has rows n) (hr : ∀ m ≤ n, rows' m = rows m) : p.Has rows' n := by
  cases p with
  | filling ws | prepending ws =>
    show ws.Perm (rows' n)
    rw [hr n le_rfl]
    exact h
  | created w =>
    obtain ⟨hn, hw⟩ := h
    refine ⟨hn, ?_⟩
    rw [hr n le_rfl, hr (n - 1) (Nat.sub_le _ _)]
    exact hw
  | _ => trivial

theorem Listing.Has.error (h : p.Has rows n) : p.error.Has rows n := by
  unfold Listing.error
  split
  · trivial
  · exact h

/-- A step in which nobody makes a call. -/
theorem ListsTold.look (h : ListsTold u rows k sh g) (hw : sh'.walletsOf u = sh.walletsOf u)
    (hc : sh'.cachedList u = sh.cachedList u ∨ sh'.cachedList u = none) :
    ListsTold u rows (k.look (sh'.cachedList u).isSome) sh' g where
  table := hw ▸ h.table
  entry {ws} hws := by
    rw [Copies.look_kept (by rw [hws]; rfl)]
    rcases hc with hc | hc
    · exact h.entry (hc ▸ hws)
    · rw [hc] at hws; cases hws
  bound := h.bound
  held := h.held

/-- A thread that has started has no list. -/
theorem ListsTold.started (h : ListsTold u rows k sh g) :
    ListsTold u rows k sh (Function.update g i (some (o, .idle))) where
  table := h.table
  entry := h.entry
  bound := h.bound
  held {j q} hg := by
    by_cases hj : j = i
    · subst hj
      rw [Function.update_self] at hg
      cases hg
      exact fun n _ => trivial
    · rw [Function.update_of_ne hj] at hg
      exact h.held hg

theorem listKept_of_set {ws : List Wallet} (hc : c ≠ .fail) :
    listKept u k i c (.redis (.set (.userWallets u) ws)) = k.held i := by
  cases c with
  | fail => exact absurd rfl hc
  | ok a => exact if_pos rfl
  | failAfter a => exact if_pos rfl

theorem listKept_of_not_set (h : ∀ ws, op = .redis (.set (.userWallets u) ws) → c = .fail) :
    listKept u k i c op = k.kept := by
  unfold listKept
  split
  · rfl
  · next c v ws hc =>
    rw [if_neg]
    rintro rfl
    exact hc (h ws rfl)
  · rfl

/-- A wallet that is created comes last among the rows of its user. -/
theorem walletsOf_created {cur : String} {w : Wallet}
    (h : exec c i o (.prisma (.walletCreate u cur)) sh = some (sh', .ok w)) :
    sh'.walletsOf u = sh.walletsOf u ++ [w] := by
  rcases exec_walletCreate h with ⟨-, e, hr⟩ | ⟨-, w', t', hw, ins, rfl, hr⟩
  · cases hr
  rcases hr with hr | hr
  · obtain rfl : w = w' := Except.ok.inj hr
    show (sh.addWallet w t').walletsOf u = _
    rw [walletsOf_addWallet ins, if_pos ⟨by rw [hw], by rw [hw]⟩]
  · cases hr

/-- A look shows what there is, or leaves what has been seen before. -/
theorem listHeld_cases (h : listHeld u k i op = some n) :
    (op = .prisma (.walletFindMany u) ∧ n = k.changes) ∨ k.held i = some n ∧
      (op = .redis (.get (.userWallets u)) → k.kept = some (n - 1) ∧ 0 < n) := by
  unfold listHeld at h
  split at h
  · next v =>
    split at h
    · next hv => exact .inl ⟨by rw [hv], (Option.some.inj h).symm⟩
    · exact .inr ⟨h, nofun⟩
  · next v =>
    split at h
    · obtain ⟨hs, hf⟩ := Option.filter_eq_some_iff.mp h
      exact .inr ⟨hs, fun _ => of_decide_eq_true hf⟩
    · next hv => exact .inr ⟨h, fun he => by cases he; exact absurd rfl hv⟩
  · next other => exact .inr ⟨h, fun he => absurd he (other u)⟩

/-- A step that changes rows of the user. -/
theorem ListsTold.change (h : ListsTold u rows k s.shared g)
    (he : exec c i o op s.shared = some (sh, .ok x))
    (hop : (∃ cur, op = .prisma (.walletCreate u cur)) ∨
      op = .tx .commit ∧ (lists u o).next p op (.ok x) = .owes) :
    ∃ rows', ListsTold u rows' (k.change i) sh
      (Function.update g i (some (o, (lists u o).next p op (.ok x)))) := by
  have cached : sh.cachedList u = s.shared.cachedList u := by
    rcases exec_cachedList (u := u) he with hc | ⟨ws, hset, -⟩ | ⟨hdel, -⟩
    · exact hc
    · rcases hop with ⟨cur, rfl⟩ | ⟨rfl, -⟩ <;> cases hset
    · rcases hop with ⟨cur, rfl⟩ | ⟨rfl, -⟩ <;> cases hdel
  let later : Nat → List Wallet := Function.update rows (k.changes + 1) (sh.walletsOf u)
  have last : later (k.changes + 1) = sh.walletsOf u := Function.update_self _ _ _
  have before {n : Nat} (hn : n ≤ k.changes) : later n = rows n :=
    Function.update_of_ne (by omega) _ _
  refine ⟨later, last ▸ .refl _, fun hws => ?_, ?_, ?_⟩
  · obtain ⟨n, hn, hk, hperm⟩ := h.entry (cached ▸ hws)
    exact ⟨n, Nat.le_succ_of_le hn, hk, (before hn).symm ▸ hperm⟩
  · exact Copies.bound_update (fun n hn => (Option.some.inj hn).ge)
      fun j n hn => Nat.le_succ_of_le (h.bound hn)
  · refine Copies.held_update (P := fun q x => ∀ n, x = some n → q.2.Has later n) (fun n hs => ?_)
      fun j q _ hg n hs => (h.held hg n hs).congr fun m hm => before (hm.trans (h.bound hs))
    cases hs
    rcases hop with ⟨cur, rfl⟩ | ⟨rfl, hp⟩
    · -- the new wallet is the whole difference
      rw [show (lists u o).next p (.prisma (.walletCreate u cur)) (.ok x) = .created x from if_pos rfl]
      refine ⟨Nat.succ_pos _, ?_⟩
      rw [last, walletsOf_created he, Nat.add_sub_cancel, before le_rfl]
      exact (h.table.symm.cons x).trans (List.perm_append_singleton x _).symm
    · rw [hp]
      trivial

/-- What a thread has after a call has the changes that the log says it has. -/
theorem ListsTold.has (h : ListsTold u rows k s.shared g) (hg : g i = some (o, p))
    (ha : (lists u o).allow p op) (he : exec c i o op s.shared = some (sh, r))
    (hw : sh.walletsOf u = s.shared.walletsOf u) (hs : listHeld u k i op = some n) :
    ((lists u o).next p op r).Has rows n := by
  have moves : p.Moves o u op r ((lists u o).next p op r) := p.next_moves o u op r
  generalize (lists u o).next p op r = q at moves
  have looks := listHeld_cases hs
  have before : p.Has rows n := by
    rcases looks with ⟨rfl, -⟩ | ⟨hs, -⟩
    · rw [show p = .idle from ha]
      trivial
    · exact h.held hg n hs
  cases moves with
  | stay _ => exact before
  | error => exact before.error
  | @look x =>
    obtain ⟨hop, -⟩ | ⟨hs, hentry⟩ := looks
    · cases hop
    obtain ⟨hk, hn⟩ := hentry rfl
    obtain ⟨rfl, rfl⟩ := exec_get_ok he
    cases p with
    | created w =>
      cases hx : s.shared.redis (.userWallets u) with
      | none => trivial
      | some ws =>
        obtain ⟨m, -, hm, hperm⟩ := h.entry hx
        cases hk.symm.trans hm
        exact (hperm.cons w).trans (before : 0 < n ∧ _).2
    | _ => exact before
  | set | del => trivial
  | find =>
    have all : listHeld u k i (.prisma (.walletFindMany u)) = some k.changes := if_pos rfl
    cases all.symm.trans hs
    cases c with
    | ok a => cases he; exact (List.perm_insertionSort _ _).trans h.table
    | fail => cases he
    | failAfter a => cases he
  | @create cur w =>
    have longer := walletsOf_created he
    rw [hw] at longer
    exact absurd longer (by simp)
  | commit => trivial

/-- A step that changes no row of the user. -/
theorem ListsTold.call (hc : InOrder u k s (.run i c)) (hi : s.calling i = some op)
    (hg : g i = some (o, p)) (ha : (lists u o).allow p op)
    (he : exec c i o op s.shared = some (sh, r)) (hw : sh.walletsOf u = s.shared.walletsOf u)
    (h : ListsTold u rows k s.shared g) :
    ListsTold u rows ((k.copy i (listHeld u k i op) (listKept u k i c op)).look (sh.cachedList u).isSome)
      sh (Function.update g i (some (o, (lists u o).next p op r))) := by
  refine ⟨hw ▸ h.table, fun {ws} hws => ?_, ?_, ?_⟩
  · rw [Copies.look_kept (by rw [hws]; rfl)]
    show ∃ n ≤ k.changes, listKept u k i c op = some n ∧ _
    by_cases hset : (∃ ws', op = .redis (.set (.userWallets u) ws')) ∧ c ≠ .fail
    · obtain ⟨⟨ws', rfl⟩, hcf⟩ := hset
      have fresh := hc.set i c ws' rfl hcf hi
      cases hws.symm.trans (exec_set hcf he)
      refine ⟨k.changes, le_rfl, (listKept_of_set hcf).trans fresh, ?_⟩
      rcases ha rfl with rfl | rfl
      · exact h.held hg _ fresh
      · exact h.held hg _ fresh
    · rw [listKept_of_not_set fun ws' hop => by_contra fun hcf => hset ⟨⟨ws', hop⟩, hcf⟩]
      rcases exec_cachedList (u := u) he with hsame | ⟨ws', hop, hcf, -⟩ | ⟨-, hnone⟩
      · exact h.entry (hsame ▸ hws)
      · exact absurd ⟨⟨ws', hop⟩, hcf⟩ hset
      · rw [hnone] at hws; cases hws
  · refine Copies.bound_update (fun n hn => ?_) fun j n hn => h.bound hn
    rcases listHeld_cases hn with ⟨-, rfl⟩ | ⟨hs, -⟩
    · exact le_rfl
    · exact h.bound hs
  · exact Copies.held_update (P := fun q x => ∀ n, x = some n → q.2.Has rows n)
      (fun n hs => h.has hg ha he hw hs) fun j q _ hg => h.held hg

theorem ListsTold.step (hc : InOrder u k s l)
    (hf : ∀ th ∈ s.threads, ∀ d, th.origin.job? ≠ some (.funding d)) (known : s.Known)
    (ht : Machine.Tracks .crashed (lists u) Settles s.threads g)
    (hfol : Machine.Follows service .crashed (lists u) (fun _ => .idle) s g l t g')
    (h : ListsTold u rows k s.shared g) :
    ∃ rows', ListsTold u rows' (listCopies u k s l t) t.shared g' := by
  cases hfol with
  | start ha _ => exact ⟨rows, h.started.look (accept_entry ha).1 (.inl (accept_entry ha).2)⟩
  | env he => exact ⟨rows, h.look (env_entry he).1 (env_entry he).2⟩
  | kill _ _ => exact ⟨rows, h.look rfl (.inl rfl)⟩
  | @run i c o op f sh r p hi hg ha he =>
    have calling : s.calling i = some op := Config.calling_of_call hi
    simp only [listCopies, calling]
    by_cases hw : sh.walletsOf u = s.shared.walletsOf u
    · rw [if_pos hw]
      exact ⟨rows, h.call hc calling hg ha he hw⟩
    rw [if_neg hw]
    obtain ⟨gp, hgp, sound⟩ := known
    obtain ⟨q, hq, hallow, -⟩ := hgp.called hi
    rcases exec_walletsOf sound hq hallow he with hsame | ⟨answered, hop⟩
    · exact absurd hsame hw
    have writes : op.writesWallets = true := by
      rcases hop with ⟨cur, rfl⟩ | ⟨rfl, -⟩ <;> rfl
    cases r with
    | error e =>
      obtain ⟨a, rfl⟩ := answered e rfl
      rw [hc.lost i a op rfl calling] at writes
      cases writes
    | ok x =>
      have entered : (∃ cur, op = .prisma (.walletCreate u cur)) ∨
          op = .tx .commit ∧ (lists u o).next p op (.ok x) = .owes := by
        rcases hop with hop | ⟨rfl, j, hj, leg, hl, rfl⟩
        · exact .inl hop
        · exact .inr ⟨rfl, if_pos (drops_of_leg hj hl (hf _ (List.mem_of_getElem? hi)))⟩
      obtain ⟨rows', h'⟩ := h.change (i := i) he entered
      exact ⟨rows', h'.look rfl (.inl rfl)⟩

theorem ListsTold.matches (h : ListsTold u rows k sh g) (hk : k.Settled) : sh.Matches u := by
  intro ws hws
  obtain ⟨n, -, hn, hperm⟩ := h.entry hws
  rcases hk with hk | hk
  · rw [hk] at hn; cases hn
  · cases hk.symm.trans hn
    exact hperm.trans h.table.symm

/-- Steps in order cache the present rows. -/
theorem InOrder.cachesRows (hc : InOrder u k s l) (h : ListsTold u rows k s.shared g)
    (ht : Machine.Tracks .crashed (lists u) Settles s.threads g) : CachesRows u s l where
  set i c o ws f hl hcf hi := by
    have fresh := hc.set i c ws hl hcf (Config.calling_of_call hi)
    obtain ⟨p, hg, ha, -⟩ := ht.called hi
    refine List.Perm.trans ?_ h.table.symm
    rcases ha rfl with rfl | rfl
    · exact h.held hg _ fresh
    · exact h.held hg _ fresh
  wrong i hw wrote := h.matches (hc.wrong i hw wrote)
  lost i a o op f hl hi := hc.lost i a op hl (Config.calling_of_call hi)

/-- When nothing is in progress the cached list of a user is absent or has the
user's rows, in every run without deposits in which no change of the rows comes
between a list that is cached and what it was made from, and no thread that has
changed a wallet is stopped while the entry lacks a change. -/
theorem wallet_list_survives_races (hq : Quiet s) (hm : s.shared.Matches u) {k : Copies}
    (h : service.Logs .crashed (listCopies u) (fun k s l => ListRun s l ∧ InOrder u k s l) s
      (.first (s.shared.cachedList u).isSome) t k) (idle : t.idle = true) :
    t.shared.cachedList u = none ∨
      ∃ ws, t.shared.cachedList u = some ws ∧ ws.Perm (t.shared.walletsOf u) := by
  have start : ListsTold u (fun _ => s.shared.walletsOf u) (.first (s.shared.cachedList u).isSome)
      s.shared fun _ => none := by
    refine ⟨.refl _, fun {ws} hws => ⟨0, le_rfl, ?_, hm ws hws⟩, nofun, nofun⟩
    rw [hws]
    rfl
  let Past (v : State) : Prop :=
    (∀ th ∈ v.threads, ∀ d, th.origin.job? ≠ some (.funding d)) ∧ v.Known
  have past (v : State) (hv : Reach ListRun s v) : Past v :=
    ⟨Reach.no_deposits (fun _ _ hc => hc) hq hv, Reach.sound (fun _ _ hc => hc.1) hq hv⟩
  let Told (v : State) (g : Machine.Ghost Origin Listing) (n : Copies) : Prop :=
    Reach (fun s l => ListRun s l ∧ CachesRows u s l) s v ∧ ∃ rows, ListsTold u rows n v.shared g
  have step (v g n l w g') (hc : (ListRun v l ∧ InOrder u n v l) ∧ Past v)
      (ht : Machine.Tracks .crashed (lists u) Settles v.threads g) (hI : Told v g n)
      (hf : Machine.Follows service .crashed (lists u) (fun _ => .idle) v g l w g') :
      Told w g' (listCopies u n v l w) := by
    obtain ⟨⟨run, order⟩, deposits, known⟩ := hc
    obtain ⟨reach, rows, tells⟩ := hI
    exact ⟨reach.tail ⟨run, order.cachesRows tells ht⟩ hf.step, tells.step order deposits known ht hf⟩
  obtain ⟨g, -, reach, -⟩ := Machine.Tracks.logged (C := ListRun) (service_lists fun _ _ hc => hc.1)
    (fun _ _ _ hc => hc.1.1) (.of_nil hq.threads) ⟨.refl, _, start⟩ step
    (h.knowing (fun _ _ _ hc => hc.1) past)
  have current := reach.list_matches hq hm idle
  cases hcached : t.shared.cachedList u with
  | none => exact .inl rfl
  | some ws => exact .inr ⟨ws, rfl, current ws hcached⟩

end

def Step.noDeposit : Step → Bool
  | .start (.delivery m) => match m.data with
    | .job (.funding _) => false
    | _ => true
  | l => l.ofWallets

theorem listRun_of_noDeposit {s : State} {l : Step} (h : l.noDeposit = true) : ListRun s l := by
  cases l with
  | start o =>
    cases o with
    | http tok r => exact ⟨h, fun m d hl => by cases hl⟩
    | delivery m =>
      refine ⟨rfl, fun m' d hl hd => ?_⟩
      cases hl
      simp only [Step.noDeposit, hd] at h
      cases h
  | _ => exact ⟨rfl, fun m d hl => by cases hl⟩

/-- Every call is answered, no request row is refused and what is cached is new. -/
def inOrder (u : Int) (k : Copies) (s : State) : Step → Bool
  | .run i (.ok _) => match s.calling i with
    | some (.redis (.set (.userWallets v) _)) => v ≠ u || k.Fresh i
    | some (.prisma (.walletRequestCreate row)) => (s.shared.db.walletRequests.find? row.txId).isNone
    | _ => true
  | .run _ _ | .kill _ => false
  | _ => true

theorem inOrder_of_test {u : Int} {k : Copies} {s : State} {l : Step} (h : inOrder u k s l = true) :
    InOrder u k s l := by
  cases l with
  | kill i => cases h
  | start o =>
    refine ⟨(fun _ _ _ hl => by cases hl), fun i hw => ?_, fun _ _ _ hl => by cases hl⟩
    rcases hw with hl | ⟨c, hl, -⟩ <;> cases hl
  | env e =>
    refine ⟨(fun _ _ _ hl => by cases hl), fun i hw => ?_, fun _ _ _ hl => by cases hl⟩
    rcases hw with hl | ⟨c, hl, -⟩ <;> cases hl
  | run i c =>
    cases c with
    | fail => cases h
    | failAfter a => cases h
    | ok a =>
      refine ⟨fun j c ws hl _ hj => ?_, fun j hw => ?_, fun _ _ _ hl => by cases hl⟩
      · cases hl
        simpa [inOrder, hj] using h
      · rcases hw with hl | ⟨c, hl, hc | ⟨o, row, f, hj, taken⟩⟩
        · cases hl
        · cases hl
          exact absurd rfl (hc a)
        · cases hl
          simp only [inOrder, Config.calling_of_call hj, Option.isNone_iff_eq_none] at h
          rw [h] at taken
          cases taken

/-- A quiet service with one wallet. -/
def State.withWallet (w : Wallet) : State :=
  { State.empty with
    shared.db.wallets := ⟨[w], List.nodup_singleton _⟩
    shared.db.nextWalletId := w.id + 1
    shared.versions := [w] }

theorem State.withWallet_quiet (w : Wallet) : Quiet (State.withWallet w) :=
  ⟨rfl, fun _ => rfl, fun _ => rfl, rfl, rfl⟩

def raceWithdrawal : WithdrawWalletDto := ⟨1, 1, 3, "USD", "a"⟩

/-- A lookup, a new wallet, a withdrawal and one more lookup, none of which waits
for the one before it to end. -/
def listsInterleaved : List Step :=
  .start (.http 1 (.getUserWallets 1)) :: calls 0 1 ++
  .start (.http 1 (.createWallet ⟨1, "EUR", "w"⟩)) :: calls 1 3 ++ calls 0 2 ++
  .start (.http 1 (.withdrawFromWallet raceWithdrawal)) :: calls 2 4 ++
  .start (.delivery ⟨.walletWithdrawal, .job (.withdrawal raceWithdrawal), none, 0⟩) :: calls 3 4 ++
  calls 1 3 ++ calls 3 3 ++ calls 1 4 ++ calls 3 3 ++
  .start (.http 1 (.getUserWallets 1)) :: calls 4 1 ++ calls 3 1 ++ calls 4 2 ++ calls 3 2

theorem wallet_list_survives_races_interleaved : ∃ s t k, Quiet s ∧ s.shared.Matches 1 ∧
    service.Logs .crashed (listCopies 1) (fun k s l => ListRun s l ∧ InOrder 1 k s l) s
      (.first (s.shared.cachedList 1).isSome) t k ∧ k.changes = 2 ∧ t.idle = true ∧
    (t.shared.cachedList 1).isSome ∧ (t.shared.cachedList 1 = none ∨
      ∃ ws, t.shared.cachedList 1 = some ws ∧ ws.Perm (t.shared.walletsOf 1)) := by
  let s := State.withWallet ⟨1, 1, ⟨100000⟩, "USD", 0, 0, none⟩
  have h : ((service.runsLog .crashed (listCopies 1)
      (fun k s l => Step.noDeposit l && inOrder 1 k s l) listsInterleaved s
      (.first (s.shared.cachedList 1).isSome)).any fun x => decide (x.2.changes = 2) && x.1.idle &&
        (x.1.shared.cachedList 1).isSome) = true := by decide +kernel
  obtain ⟨⟨t, k⟩, ht, hp⟩ := Option.any_eq_true _ _ |>.mp h
  simp only [Bool.and_eq_true, decide_eq_true_eq] at hp
  obtain ⟨⟨changes, idle⟩, cached⟩ := hp
  have run : service.Logs .crashed (listCopies 1) (fun k s l => ListRun s l ∧ InOrder 1 k s l) s
      (.first (s.shared.cachedList 1).isSome) t k := by
    refine Machine.logs_of_runsLog (fun n v l _ htest => ?_) .refl ht
    obtain ⟨deposits, order⟩ := (Bool.and_eq_true _ _).mp htest
    exact ⟨listRun_of_noDeposit deposits, inOrder_of_test order⟩
  have quiet : Quiet s := State.withWallet_quiet _
  have absent : s.shared.Matches 1 := fun ws hws => by cases hws
  exact ⟨s, t, k, quiet, absent, run, changes, idle, cached,
    wallet_list_survives_races quiet absent run idle⟩

/-- The rows are read, a withdrawal commits and drops the entry, and then the
rows read before are cached. -/
def listReadTooEarly : List Step :=
  .start (.http 1 (.getUserWallets 1)) :: calls 0 2 ++
  .start (.http 1 (.withdrawFromWallet raceWithdrawal)) :: calls 1 4 ++
  .start (.delivery ⟨.walletWithdrawal, .job (.withdrawal raceWithdrawal), none, 0⟩) :: calls 2 13 ++
  calls 0 1

theorem wallet_list_stale_after_race : ∃ s t, Quiet s ∧ s.shared.Matches 1 ∧ Reach ListRun s t ∧
    t.idle = true ∧ ¬ (t.shared.cachedList 1 = none ∨
      ∃ ws, t.shared.cachedList 1 = some ws ∧ ws.Perm (t.shared.walletsOf 1)) := by
  let s := State.withWallet ⟨1, 1, ⟨100000⟩, "USD", 0, 0, none⟩
  have h : ((runSteps listReadTooEarly s).any fun t => t.idle &&
      (t.shared.cachedList 1).any fun ws => !decide (ws.Perm (t.shared.walletsOf 1))) = true := by
    decide +kernel
  obtain ⟨t, ht, hp⟩ := runSteps_any h
  obtain ⟨idle, hc⟩ := (Bool.and_eq_true _ _).mp hp
  obtain ⟨ws, hws, hne⟩ := Option.any_eq_true _ _ |>.mp hc
  have steps : ∀ l ∈ listReadTooEarly, l.noDeposit = true := by decide
  refine ⟨s, t, State.withWallet_quiet _, fun ws hws => (by cases hws),
    Machine.reach_of_runs (fun l hl _ => listRun_of_noDeposit (steps l hl)) ht, idle, ?_⟩
  rintro (hnone | ⟨ws', hws', hperm⟩)
  · rw [hws] at hnone; cases hnone
  · rw [hws] at hws'
    cases hws'
    exact absurd hperm (by simpa using hne)

end Pactic
