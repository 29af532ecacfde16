import Pactic.Wallets.ListRaces

/-! # Wallet lists, one operation at a time

Nothing starts while something else is in progress and every call is answered.
What a thread owes the entry of a user is then the only difference between the
cached list and what the database would list, as long as nothing but the
writers that keep the entry change the rows of the user. -/
namespace Pactic
open Keyed Resumption

/-- The wallets of a user as the database lists them, newest first. -/
def Shared.listed (sh : Shared) (u : Int) : List Wallet :=
  (sh.walletsOf u).insertionSort fun v w => w.createdAt ≤ v.createdAt

/-- The entry of a user is absent or is what the database would list. -/
def Shared.Transparent (sh : Shared) (u : Int) : Prop :=
  ∀ ws, sh.cachedList u = some ws → ws = sh.listed u

/-- Operations run to completion alone, and every call is answered. -/
def OneAtATime (s : State) (l : Step) : Prop :=
  WalletRun s l ∧ (∀ o, l = .start o → s.idle = true) ∧
    (∀ i c, l = .run i c → ∃ a, c = .ok a) ∧ ∀ i, l ≠ .kill i

/-- The entry of the user is absent whenever a deposit on a wallet of the user
commits and whenever the request row of a new wallet of the user is refused. A
wallet that is added while there is an entry is newer than the others. -/
structure KeepsListed (u : Int) (s : State) (l : Step) : Prop where
  deposit : ∀ i c o d k, l = .run i c → s.threads[i]? = some ⟨o, .call (.tx .commit) k⟩ →
    o.job? = some (.funding d) → d.userId = u → s.shared.cachedList u = none
  refused : ∀ i c o row k, l = .run i c →
    s.threads[i]? = some ⟨o, .call (.prisma (.walletRequestCreate row)) k⟩ →
    row.userId = u → row.status = .success →
    (s.shared.db.walletRequests.find? row.txId).isSome → s.shared.cachedList u = none
  latest : ∀ i c o cur k, l = .run i c →
    s.threads[i]? = some ⟨o, .call (.prisma (.walletCreate u cur)) k⟩ → s.shared.cachedList u ≠ none →
    ∀ w ∈ s.shared.walletsOf u, w.createdAt < s.shared.db.now

/-- An element that goes before all others is put on top of the sorted rest. -/
theorem insertionSort_append_singleton {α : Type} {r : α → α → Prop} [DecidableRel r] {l : List α} {a : α}
    (h : ∀ b ∈ l, ¬ r b a) : (l ++ [a]).insertionSort r = a :: l.insertionSort r := by
  induction l with
  | nil => rfl
  | cons b l ih =>
    rw [List.cons_append, List.insertionSort_cons, ih fun x hx => h x (.tail _ hx),
      List.orderedInsert_cons, if_neg (h b (.head _)), List.insertionSort_cons]

section
variable {u : Int} {sh sh' : Shared} {s t : State} {l : Step} {p : Listing}

theorem listed_congr (h : sh'.walletsOf u = sh.walletsOf u) : sh'.listed u = sh.listed u := by
  unfold Shared.listed
  rw [h]

theorem transparent_of_none (h : sh.cachedList u = none) : sh.Transparent u := by
  intro ws hws
  rw [h] at hws
  cases hws

/-- What the entry and the rows are while a thread stands at `p`. -/
def Listing.Good (u : Int) (sh : Shared) : Listing → Prop
  | owes => True
  | created w => ∀ ws, sh.cachedList u = some ws → w :: ws = sh.listed u
  | prepending ws => ws = sh.listed u
  | filling ws => ws = sh.listed u ∧ sh.Transparent u
  | idle | stopped => sh.Transparent u

theorem Shared.Transparent.same (h : sh.Transparent u) (hw : sh'.walletsOf u = sh.walletsOf u)
    (hc : sh'.cachedList u = sh.cachedList u ∨ sh'.cachedList u = none) : sh'.Transparent u := by
  intro ws hws
  rw [listed_congr hw]
  rcases hc with hc | hc
  · exact h ws (hc ▸ hws)
  · rw [hc] at hws; cases hws

theorem Listing.Good.same (h : p.Good u sh) (hw : sh'.walletsOf u = sh.walletsOf u)
    (hc : sh'.cachedList u = sh.cachedList u ∨ sh'.cachedList u = none) : p.Good u sh' := by
  cases p with
  | owes => trivial
  | created w =>
    intro ws hws
    rw [listed_congr hw]
    rcases hc with hc | hc
    · exact h ws (hc ▸ hws)
    · rw [hc] at hws; cases hws
  | prepending ws => exact (h : ws = _).trans (listed_congr hw).symm
  | filling ws => exact ⟨h.1.trans (listed_congr hw).symm, h.2.same hw hc⟩
  | idle => exact Shared.Transparent.same h hw hc
  | stopped => exact Shared.Transparent.same h hw hc

/-- A thread that owes nothing leaves the entry transparent. -/
theorem Listing.Good.transparent (h : p.Good u sh) (hp : p.owing = false) : sh.Transparent u := by
  cases p with
  | idle | stopped => exact h
  | filling ws => exact h.2
  | owes | created | prepending => cases hp

section
variable {i : Nat} {a : Answer} {o : Origin} {op : Op} {k : Except Err op.Res → Proc Reply}
  {r : Except Err op.Res} {q : Local} {gp : Threads}

/-- A call that is answered changes the rows of the user only if it succeeds. -/
theorem exec_walletsOf_answered (sound : Sound s.shared gp) (hgp : gp i = some (o, q))
    (hq : o.Allows q op) (he : exec (.ok a) i o op s.shared = some (sh, r)) :
    sh.walletsOf u = s.shared.walletsOf u ∨ (∃ x, r = .ok x) ∧
      ((∃ cur, op = .prisma (.walletCreate u cur)) ∨
        op = .tx .commit ∧ ∃ j, o.job? = some j ∧ ∃ l ∈ j.legs, l.userId = u) := by
  rcases exec_walletsOf sound hgp hq he with hw | ⟨answered, hop⟩
  · exact .inl hw
  · refine .inr ⟨?_, hop⟩
    cases r with
    | ok x => exact ⟨x, rfl⟩
    | error e =>
      obtain ⟨a', ha'⟩ := answered e rfl
      cases ha'

/-- Of the calls that pass the entry by, only the commit of a deposit changes the
rows, and then there is no entry. -/
theorem Listing.Good.pass (hc : KeepsListed u s (.run i (.ok a)))
    (hi : s.threads[i]? = some ⟨o, .call op k⟩) (sound : Sound s.shared gp) (hgp : gp i = some (o, q))
    (hq : o.Allows q op) (ha : (lists u o).allow p op) (passes : op.Passes u o)
    (he : exec (.ok a) i o op s.shared = some (sh, r)) (h : p.Good u s.shared) : p.Good u sh := by
  have cached : sh.cachedList u = s.shared.cachedList u := by
    rcases exec_cachedList (u := u) he with hsame | ⟨ws, hop, -⟩ | ⟨hop, -⟩
    · exact hsame
    · exact absurd hop (passes.set ws)
    · exact absurd hop passes.del
  have rows := exec_walletsOf_answered (u := u) sound hgp hq he
  rcases rows with hw | ⟨-, ⟨cur, hop⟩ | ⟨rfl, j, hj, leg, hl, hu⟩⟩
  · exact h.same hw (.inl cached)
  · exact absurd hop (passes.create cur)
  · obtain ⟨d, rfl⟩ : ∃ d, j = .funding d := by
      rcases Job.drops_of_leg hl with hd | hd
      · exact hd
      · have kept := passes.commit rfl
        simp only [hj, Option.any_some, decide_eq_false_iff_not] at kept
        exact absurd (hu ▸ hd) kept
    have payee : d.userId = u := by
      rw [← hu, List.mem_singleton.mp hl]
    have idle : p = .idle := ha
    subst idle
    exact transparent_of_none (cached.trans (hc.deposit i _ o d k rfl hi hj payee))

/-- A thread whose call is refused owes nothing more: if it did, there is no entry. -/
theorem Listing.Good.refused {e : Err} (hc : KeepsListed u s (.run i (.ok a)))
    (hi : s.threads[i]? = some ⟨o, .call op k⟩) (sound : Sound s.shared gp) (hgp : gp i = some (o, q))
    (hq : o.Allows q op) (ha : (lists u o).allow p op)
    (he : exec (.ok a) i o op s.shared = some (sh, .error e)) (h : p.Good u s.shared) :
    p.error.Good u sh := by
  have hw : sh.walletsOf u = s.shared.walletsOf u := by
    rcases exec_walletsOf_answered sound hgp hq he with hw | ⟨⟨x, hx⟩, -⟩
    · exact hw
    · cases hx
  have cached : sh.cachedList u = s.shared.cachedList u := by
    rcases exec_cachedList (u := u) he with hsame | ⟨ws, rfl, -⟩ | ⟨rfl, -⟩
    · exact hsame
    · cases he
    · cases he
  by_cases hp : p.owing = true
  · obtain ⟨row, rfl, taken⟩ := owing_refused hq ha he rfl hp
    obtain ⟨hu, hs⟩ := ha hp
    have none := hc.refused i _ o row k rfl hi hu hs taken
    rw [Listing.error, if_pos hp]
    exact transparent_of_none (cached.trans none)
  · rw [Listing.error, if_neg hp]
    exact h.same hw (.inl cached)

/-- What a thread has found in the entry it puts its wallet on top of. -/
theorem Listing.Good.looked (h : p.Good u sh) : (p.looked (sh.cachedList u)).Good u sh := by
  cases p with
  | created w =>
    generalize hx : sh.cachedList u = x
    cases x with
    | none => exact transparent_of_none hx
    | some ws => exact h ws hx
  | _ => exact h

/-- The list that is cached is what the database would list. -/
theorem Listing.Good.cached {ws : List Wallet} {x : Unit}
    (ha : (lists u o).allow p (.redis (.set (.userWallets u) ws)))
    (he : exec (.ok a) i o (.redis (.set (.userWallets u) ws)) s.shared = some (sh, .ok x))
    (h : p.Good u s.shared) : sh.Transparent u := by
  cases he
  have listed : ws = s.shared.listed u := by
    rcases ha rfl with rfl | rfl
    · exact h.1
    · exact h
  have cached : Function.update s.shared.redis (.userWallets u) (some ws) (.userWallets u) = some ws :=
    Function.update_self _ _ _
  intro ws' hws
  exact Option.some.inj (cached.symm.trans hws) ▸ listed

/-- A new wallet is listed before the others. -/
theorem Listing.Good.created {cur : String} {w : Wallet} {k} (hc : KeepsListed u s (.run i (.ok a)))
    (hi : s.threads[i]? = some ⟨o, .call (.prisma (.walletCreate u cur)) k⟩)
    (he : exec (.ok a) i o (.prisma (.walletCreate u cur)) s.shared = some (sh, .ok w))
    (h : s.shared.Transparent u) : (Listing.created w).Good u sh := by
  rcases exec_walletCreate he with ⟨-, e, hr⟩ | ⟨-, w', t', hw', ins, rfl, hr⟩
  · cases hr
  rcases hr with hr | hr
  · cases hr
    intro ws hws
    have cached : s.shared.cachedList u = some ws := hws
    have added : (s.shared.addWallet w t').walletsOf u = s.shared.walletsOf u ++ [w] := by
      rw [walletsOf_addWallet ins, if_pos ⟨by rw [hw'], by rw [hw']⟩]
    have newest : ∀ v ∈ s.shared.walletsOf u, ¬ w.createdAt ≤ v.createdAt := by
      intro v hv
      have older := hc.latest i _ o cur k rfl hi (by rw [cached]; simp) v hv
      rw [hw']
      exact Nat.not_le.mpr older
    show w :: ws = List.insertionSort _ ((s.shared.addWallet w t').walletsOf u)
    rw [added, insertionSort_append_singleton newest, h ws cached]
    rfl
  · cases hr

/-- Every answered call keeps what the entry and the rows are. -/
theorem Listing.Good.call (hc : KeepsListed u s (.run i (.ok a)))
    (hi : s.threads[i]? = some ⟨o, .call op k⟩) (sound : Sound s.shared gp) (hgp : gp i = some (o, q))
    (hq : o.Allows q op) (ha : (lists u o).allow p op)
    (he : exec (.ok a) i o op s.shared = some (sh, r)) (h : p.Good u s.shared) :
    ((lists u o).next p op r).Good u sh := by
  have moves : p.Moves o u op r ((lists u o).next p op r) := p.next_moves o u op r
  generalize (lists u o).next p op r = p' at moves
  cases moves with
  | stay passes => exact h.pass hc hi sound hgp hq ha passes he
  | error => exact h.refused hc hi sound hgp hq ha he
  | look =>
    obtain ⟨rfl, hx⟩ := exec_get_ok he
    exact hx ▸ h.looked
  | set => exact h.cached ha he
  | del =>
    cases he
    exact transparent_of_none (Function.update_self _ _ _)
  | find =>
    cases he
    have idle : p = .idle := ha
    subst idle
    exact ⟨rfl, h⟩
  | create =>
    have idle : p = .idle := ha
    subst idle
    exact Listing.Good.created hc hi he h
  | commit => trivial

end

/-- The thread in progress keeps the entry and the rows related, and between two
operations the entry is transparent. -/
structure Listed (u : Int) (s : State) (g : Nat → Option (Origin × Listing)) : Prop where
  good : ∀ {i o p}, g i = some (o, p) → s.Busy i → p.Good u s.shared
  transparent : s.idle = true → s.shared.Transparent u

theorem Listed.step {g g'} (hl : OneAtATime s l) (hc : KeepsListed u s l) (known : s.Known)
    (alone : ∀ i j, s.Busy i → s.Busy j → i = j)
    (ht : Machine.Tracks .crashed (lists u) Settles s.threads g) (h : Listed u s g)
    (hfol : Machine.Follows service .crashed (lists u) (fun _ => .idle) s g l t g') : Listed u t g' := by
  obtain ⟨-, starts, answered, lives⟩ := hl
  cases l with
  | kill i => exact absurd rfl (lives i)
  | env e =>
    cases hfol with
    | env henv =>
      obtain ⟨rows, cached⟩ := env_entry (u := u) henv
      exact ⟨fun hg hb => (h.good hg hb).same rows cached, fun hidle => (h.transparent hidle).same rows cached⟩
  | start o =>
    have quiet : s.shared.Transparent u := h.transparent (starts o rfl)
    have step := hfol.step
    cases hfol with
    | @start _ sh hacc hnone =>
      obtain ⟨rows, cached⟩ := accept_entry (u := u) hacc
      have quiet' : sh.Transparent u := quiet.same rows (.inl cached)
      refine ⟨fun {i o' p} hg hb => ?_, fun _ => quiet'⟩
      by_cases hi : i = s.threads.length
      · subst hi
        cases (Function.update_self _ _ _).symm.trans hg
        exact quiet'
      · rcases Machine.step_busy step hb with hb | ⟨hi', -⟩
        · exact absurd hb (Config.idle_iff.mp (starts o rfl) i)
        · exact absurd hi' hi
  | run i c =>
    obtain ⟨a, rfl⟩ := answered i c rfl
    obtain ⟨o, op, k, r, p, hi, alive, allowed, he, moved⟩ := hfol.alive_moved ht
    obtain ⟨gp, hgp, sound⟩ := known
    obtain ⟨q, hq, hallow, -⟩ := hgp.called hi
    obtain ⟨-, -, hg, -⟩ := alive
    have busy : s.Busy i := ⟨o, op, k, hi⟩
    have good : ((lists u o).next p op r).Good u t.shared :=
      Listing.Good.call hc hi sound hq hallow allowed he (h.good hg busy)
    obtain ⟨q', hi', hg', hw⟩ := moved
    refine ⟨fun {j o' p'} hgj hb => ?_, fun hidle => ?_⟩
    · have same : j = i := by
        rcases Machine.step_busy hfol.step hb with hb | ⟨-, o, hl⟩
        · exact alone j i hb busy
        · cases hl
      subst same
      cases hg'.symm.trans hgj
      exact good
    · cases q' with
      | ret r' => exact good.transparent hw
      | call op' k' => exact absurd ⟨o, op', k', hi'⟩ (Config.idle_iff.mp hidle i)

/-- The entries are transparent between operations. -/
theorem Reach.transparent (hq : Quiet s) (hs : s.shared.Transparent u)
    (h : Reach (fun s l => OneAtATime s l ∧ KeepsListed u s l) s t) (idle : t.idle = true) :
    t.shared.Transparent u := by
  have nobody (i) : ¬ s.Busy i := by
    rintro ⟨o, op, k, hi⟩
    rw [hq.threads] at hi
    cases hi
  have alone (v) (hv : Reach (fun s l => OneAtATime s l ∧ KeepsListed u s l) s v) :
      ∀ i j, v.Busy i → v.Busy j → i = j := fun i j =>
    hv.alone (fun w o k hc => Config.idle_iff.mp (hc.1.2.1 o rfl) k) nobody
  have start : Listed u s fun _ => none := ⟨fun hg => (by cases hg), fun _ => hs⟩
  obtain ⟨g, -, listed⟩ := Machine.Tracks.invariant (service_lists fun _ _ hc => hc.1.1.1.1)
    (.of_nil hq.threads) start
    (fun v g l w g' hc ht hI hf => hI.step hc.1.1.1 hc.1.1.2 hc.2 hc.1.2 ht hf)
    (Reach.knowing_sound (fun _ _ hc => hc.1.1.1) hq (h.knowing alone))
  exact listed.transparent idle

/-! ## What the endpoint replies -/

/-- The request of an idle service is answered so, with nothing else going on. -/
def State.Replies (s : State) (o : Origin) (r : Except Err Reply) : Prop :=
  ∃ n t, runSteps (.start o :: calls s.threads.length n) s = some t ∧
    t.threads[s.threads.length]? = some ⟨o, .ret r⟩

/-- Every cache entry is gone. -/
def State.uncached (s : State) : State := { s with shared.redis := fun _ => none }

/-- A request is answered by its program alone. -/
theorem replies_iff {o : Origin} {r : Except Err Reply} (ha : o.accept s.shared = some sh) :
    s.Replies o r ↔ ∃ n x, service.alone s.threads.length (.ok {}) o n o.program sh = some (x, .ret r) := by
  have started (q : Proc Reply) : (s.threads ++ [(⟨o, q⟩ : ServiceThread)])[s.threads.length]? =
      some ⟨o, q⟩ := List.getElem?_concat_length
  have moved (q : Proc Reply) (x : Shared × Proc Reply) :
      ((s.threads ++ [(⟨o, q⟩ : ServiceThread)]).set s.threads.length ⟨o, x.2⟩)[s.threads.length]? =
        some ⟨o, x.2⟩ := List.getElem?_set_self (by simp)
  have run (n : Nat) : runSteps (.start o :: calls s.threads.length n) s =
      (service.alone s.threads.length (.ok {}) o n o.program sh).map fun x =>
        ⟨x.1, (s.threads ++ [(⟨o, o.program⟩ : ServiceThread)]).set s.threads.length ⟨o, x.2⟩⟩ := by
    have first : service.step .crashed s (.start o) = some ⟨sh, s.threads ++ [⟨o, o.program⟩]⟩ := by
      simp only [Machine.step, service, ha, Option.map_some]
    simp only [runSteps, Machine.runs, first, Option.bind_some]
    exact Machine.runs_alone n (started _)
  constructor
  · rintro ⟨n, t, ht, hr⟩
    rw [run] at ht
    obtain ⟨⟨x, q⟩, hx, rfl⟩ := Option.map_eq_some_iff.mp ht
    cases (moved _ _).symm.trans hr
    exact ⟨n, x, hx⟩
  · rintro ⟨n, x, hx⟩
    exact ⟨n, _, (run n).trans (by rw [hx]; rfl), moved _ _⟩

/-- A list that is cached is the reply, and otherwise the database is asked. -/
theorem getUserWallets_replies (s : State) (u : Int) (r : Except Err Reply) :
    s.Replies (.http u (.getUserWallets u)) r ↔
      r = .ok (.wallets ((s.shared.cachedList u).getD (s.shared.listed u))) := by
  have answer : ∃ n x, service.alone s.threads.length (.ok {}) (.http u (.getUserWallets u)) n
      (Origin.program (.http u (.getUserWallets u))) s.shared =
        some (x, .ret (.ok (.wallets ((s.shared.cachedList u).getD (s.shared.listed u))))) := by
    have program : Origin.program (.http u (.getUserWallets u)) =
        WalletsService.getUserWallets u >>= fun ws => pure (.wallets ws) := by
      show WalletsController.getUserWallets u u = _
      rw [WalletsController.getUserWallets, validateTokenUser, if_neg (not_not.mpr rfl)]
      rfl
    rw [program]
    cases hc : s.shared.cachedList u with
    | some ws =>
      have found : s.shared.redis (.userWallets u) = some ws := hc
      refine ⟨1, s.shared, ?_⟩
      simp [Machine.alone, service, exec, Op.run, RedisOp.run, found, WalletsService.getUserWallets,
        Redis.get, bind, Prog.bind, Prog.perform]
      rfl
    | none =>
      have found : s.shared.redis (.userWallets u) = none := hc
      let filled : (k : CacheKey) → Option k.Value :=
        Function.update s.shared.redis (.userWallets u) (some (s.shared.listed u))
      refine ⟨3, { s.shared with redis := filled }, ?_⟩
      simp [Machine.alone, service, exec, Op.run, RedisOp.run, found, WalletsService.getUserWallets,
        Redis.get, bind, Prog.bind, Prog.perform]
      rfl
  have accepted : (Origin.http u (.getUserWallets u)).accept s.shared = some s.shared := rfl
  rw [replies_iff accepted]
  constructor
  · rintro ⟨n, x, hx⟩
    obtain ⟨n', x', hx'⟩ := answer
    exact Machine.alone_unique hx hx'
  · rintro rfl
    exact answer

/-- Where operations run one at a time, the entry of a user is absent when a
deposit of the user commits or a new wallet's request row is refused, and new
wallets are newer than the others, the endpoint replies what it would reply
with an empty cache: the present wallets of the user, newest first. -/
theorem wallet_list_transparent_alone (hq : Quiet s) (hs : s.shared.Transparent u)
    (h : Reach (fun s l => OneAtATime s l ∧ KeepsListed u s l) s t) (idle : t.idle = true)
    (r : Except Err Reply) :
    (t.Replies (.http u (.getUserWallets u)) r ↔ t.uncached.Replies (.http u (.getUserWallets u)) r) ∧
    (t.Replies (.http u (.getUserWallets u)) r ↔ r = .ok (.wallets (t.shared.listed u))) := by
  have reply : (t.shared.cachedList u).getD (t.shared.listed u) = t.shared.listed u := by
    cases hc : t.shared.cachedList u with
    | none => rfl
    | some ws => exact h.transparent hq hs idle ws hc
  have cached := getUserWallets_replies t u r
  rw [reply] at cached
  exact ⟨cached.trans (getUserWallets_replies t.uncached u r).symm, cached⟩

end

def oneAtATime (s : State) : Step → Bool
  | .start o => s.idle && Step.ofWallets (.start o)
  | .run _ (.ok _) | .env _ => true
  | _ => false

theorem oneAtATime_of_test {s : State} {l : Step} (h : oneAtATime s l = true) : OneAtATime s l := by
  cases l with
  | start o =>
    obtain ⟨idle, wallets⟩ := (Bool.and_eq_true _ _).mp h
    exact ⟨wallets, fun _ _ => idle, fun _ _ hl => (by cases hl), fun _ hl => by cases hl⟩
  | run i c =>
    cases c with
    | ok a => exact ⟨rfl, fun _ hl => (by cases hl), fun _ _ hl => by cases hl; exact ⟨a, rfl⟩,
        fun _ hl => by cases hl⟩
    | fail | failAfter => cases h
  | env e => exact ⟨rfl, fun _ hl => (by cases hl), fun _ _ hl => (by cases hl), fun _ hl => by cases hl⟩
  | kill i => cases h

/-- Nothing is committed, no request row is refused and new wallets are the newest. -/
def addsNewest (u : Int) (s : State) : Step → Bool
  | .run i _ => s.threads[i]?.all fun th => match th.prog with
      | .call (.tx .commit) _ => false
      | .call (.prisma (.walletRequestCreate row)) _ =>
          (s.shared.db.walletRequests.find? row.txId).isNone
      | .call (.prisma (.walletCreate _ _)) _ =>
          (s.shared.walletsOf u).all fun w => w.createdAt < s.shared.db.now
      | _ => true
  | _ => true

theorem keepsListed_of_addsNewest {u : Int} {s : State} {l : Step} (h : addsNewest u s l = true) :
    KeepsListed u s l where
  deposit i c o d k hl hi _ _ := by
    subst hl
    simp [addsNewest, hi] at h
  refused i c o row k hl hi _ _ taken := by
    subst hl
    simp only [addsNewest, hi, Option.all_some] at h
    rw [Option.isNone_iff_eq_none.mp h] at taken
    cases taken
  latest i c o cur k hl hi _ w hw := by
    subst hl
    simp only [addsNewest, hi, Option.all_some] at h
    exact of_decide_eq_true (List.all_eq_true.mp h w hw)

theorem wallet_list_transparent_alone_create : ∃ t,
    Reach (fun s l => OneAtATime s l ∧ KeepsListed 1 s l) State.empty t ∧ t.idle = true ∧
    (∃ ws, t.shared.cachedList 1 = some ws ∧ ws.length = 2) ∧
    ∀ r, (t.Replies (.http 1 (.getUserWallets 1)) r ↔
        t.uncached.Replies (.http 1 (.getUserWallets 1)) r) ∧
      (t.Replies (.http 1 (.getUserWallets 1)) r ↔ r = .ok (.wallets (t.shared.listed 1))) := by
  have h : ((service.runsIf .crashed (fun s l => oneAtATime s l && addsNewest 1 s l)
      (.start (.http 1 (.createWallet ⟨1, "USD", "w1"⟩)) :: calls 0 9 ++
      .start (.http 1 (.getUserWallets 1)) :: calls 1 3 ++
      .env .tick :: .start (.http 1 (.createWallet ⟨1, "EUR", "w2"⟩)) :: calls 2 10) State.empty).any fun t =>
        t.idle && (t.shared.cachedList 1).any (·.length = 2)) = true := by decide +kernel
  obtain ⟨t, ht, hp⟩ := Option.any_eq_true _ _ |>.mp h
  obtain ⟨idle, hc⟩ := (Bool.and_eq_true _ _).mp hp
  obtain ⟨ws, hws, hlen⟩ := Option.any_eq_true _ _ |>.mp hc
  have reach : Reach (fun s l => OneAtATime s l ∧ KeepsListed 1 s l) State.empty t :=
    Machine.reach_of_runsIf (fun s l hl => ⟨oneAtATime_of_test ((Bool.and_eq_true _ _).mp hl).1,
      keepsListed_of_addsNewest ((Bool.and_eq_true _ _).mp hl).2⟩) ht
  exact ⟨t, reach, idle, ⟨ws, hws, of_decide_eq_true hlen⟩, fun r =>
    wallet_list_transparent_alone State.empty_quiet (fun ws hws => by cases hws) reach idle r⟩

def listedDeposit : FundWalletDto := ⟨1, 1, "USD", 10, "a"⟩

/-- The list is cached, and the deposit that is run after that leaves it alone. -/
def listBeforeDeposit : List Step :=
  .start (.http 1 (.createWallet ⟨1, "USD", "w"⟩)) :: calls 0 9 ++
  .start (.http 1 (.getUserWallets 1)) :: calls 1 3 ++
  .start (.http 1 (.fundWallet listedDeposit)) :: calls 2 4 ++
  .start (.delivery ⟨.walletFunding, .job (.funding listedDeposit), none, 1⟩) :: calls 3 13

theorem wallet_list_stale_after_deposit : ∃ s t, Quiet s ∧ s.shared.Transparent 1 ∧
    Reach OneAtATime s t ∧ t.idle = true ∧ ¬ ∀ r,
      (t.Replies (.http 1 (.getUserWallets 1)) r ↔
        t.uncached.Replies (.http 1 (.getUserWallets 1)) r) ∧
      (t.Replies (.http 1 (.getUserWallets 1)) r ↔ r = .ok (.wallets (t.shared.listed 1))) := by
  have h : ((service.runsIf .crashed oneAtATime listBeforeDeposit State.empty).any fun t => t.idle &&
      (t.shared.cachedList 1).any fun ws => !decide (ws = t.shared.listed 1)) = true := by decide +kernel
  obtain ⟨t, ht, hp⟩ := Option.any_eq_true _ _ |>.mp h
  obtain ⟨idle, hc⟩ := (Bool.and_eq_true _ _).mp hp
  obtain ⟨ws, hws, hne⟩ := Option.any_eq_true _ _ |>.mp hc
  refine ⟨State.empty, t, State.empty_quiet, fun ws hws => (by cases hws),
    Machine.reach_of_runsIf (fun s l hl => oneAtATime_of_test hl) ht, idle, fun same => ?_⟩
  have stale : State.Replies t (.http 1 (.getUserWallets 1)) (.ok (.wallets ws)) :=
    (getUserWallets_replies t 1 _).mpr (by rw [hws, Option.getD_some])
  have fresh : ws = t.shared.listed 1 := by simpa using (same _).2.mp stale
  simp [fresh] at hne

end Pactic
