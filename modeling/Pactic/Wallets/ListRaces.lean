import Pactic.Wallets.Lists

/-! # Wallet lists under interleaving

Between the call that changes the rows of a user and the one that drops or
extends the cached list, any other thread may read the rows or the list and
cache what it has read later. -/
namespace Pactic
open Keyed Resumption

/-- Everything of the wallet side but deposits. -/
def ListRun (s : State) (l : Step) : Prop :=
  WalletRun s l ∧ ∀ m d, l = .start (.delivery m) → m.data ≠ .job (.funding d)

/-- The entry of a user is absent or has the user's rows. -/
def Shared.Matches (sh : Shared) (u : Int) : Prop :=
  ∀ ws, sh.cachedList u = some ws → ws.Perm (sh.walletsOf u)

def Event.writesWallets : Event → Bool
  | .committed _ | .walletCreated _ => true
  | _ => false

/-- Thread `i` has changed a wallet. -/
def Shared.Wrote (sh : Shared) (i : Nat) : Prop :=
  ∃ e ∈ sh.journal, e.thread = i ∧ e.event.writesWallets = true

/-- Thread `i` is killed, or its call fails, or its request row is refused. -/
def State.GoesWrong (s : State) (l : Step) (i : Nat) : Prop :=
  l = .kill i ∨ ∃ c, l = .run i c ∧ ((∀ a, c ≠ .ok a) ∨
    ∃ o row k, s.threads[i]? = some ⟨o, .call (.prisma (.walletRequestCreate row)) k⟩ ∧
      (s.shared.db.walletRequests.find? row.txId).isSome)

/-- What is cached for the user are the user's rows at that moment. Nothing goes
wrong in a thread that has changed a wallet while the entry differs from the
rows, and no answer to such a change is lost. -/
structure CachesRows (u : Int) (s : State) (l : Step) : Prop where
  set : ∀ i c o ws k, l = .run i c → c ≠ .fail →
    s.threads[i]? = some ⟨o, .call (.redis (.set (.userWallets u) ws)) k⟩ →
    ws.Perm (s.shared.walletsOf u)
  wrong : ∀ i, s.GoesWrong l i → s.shared.Wrote i → s.shared.Matches u
  lost : ∀ i a o op k, l = .run i (.failAfter a) → s.threads[i]? = some ⟨o, .call op k⟩ →
    op.writesWallets = false

section
variable {u : Int} {sh sh' : Shared} {i : Nat} {o : Origin} {c : Choice} {p : Listing}

theorem Shared.Matches.same (h : sh.Matches u) (hw : sh'.walletsOf u = sh.walletsOf u)
    (hc : sh'.cachedList u = sh.cachedList u ∨ sh'.cachedList u = none) : sh'.Matches u := by
  intro ws hws
  rw [hw]
  rcases hc with hc | hc
  · exact h ws (hc ▸ hws)
  · rw [hc] at hws; cases hws

theorem Listing.error_owing (p : Listing) : p.error.owing = false := by
  unfold Listing.error
  split
  · rfl
  · next hp => exact Bool.not_eq_true _ ▸ hp

/-- Only a write makes a thread owe something. -/
theorem owing_next {op : Op} {r} (h : ((lists u o).next p op r).owing = true) :
    p.owing = true ∨ op.writesWallets = true ∧ ∃ a, r = .ok a := by
  have moves : p.Moves o u op r ((lists u o).next p op r) := p.next_moves o u op r
  generalize (lists u o).next p op r = q at h moves
  cases moves with
  | stay _ => exact .inl h
  | error => rw [p.error_owing] at h; cases h
  | @look x =>
    cases p <;> cases x <;> first | exact .inl rfl | exact .inl h
  | set | del | find => cases h
  | @create cur w => exact .inr ⟨rfl, w, rfl⟩
  | @commit x _ => exact .inr ⟨rfl, x, rfl⟩

/-- What ends a debt: an error, an entry that is gone, or one that is set. -/
theorem owing_ends {op : Op} {r} (ha : (lists u o).allow p op)
    (h : exec c i o op sh = some (sh', r)) (hp : p.owing = true)
    (hn : ((lists u o).next p op r).owing = false) : (∃ e, r = .error e) ∨
    sh'.cachedList u = none ∨
    ∃ ws, op = .redis (.set (.userWallets u) ws) ∧ c ≠ .fail ∧ sh'.cachedList u = some ws := by
  have moves : p.Moves o u op r ((lists u o).next p op r) := p.next_moves o u op r
  generalize (lists u o).next p op r = q at hn moves
  cases moves with
  | stay _ => rw [hp] at hn; cases hn
  | @error _ e => exact .inl ⟨e, rfl⟩
  | @look x =>
    obtain ⟨rfl, hx⟩ := exec_get_ok h
    refine .inr (.inl (hx.symm.trans ?_))
    cases x with
    | none => rfl
    | some ws => cases p <;> first | exact Bool.noConfusion hp | exact Bool.noConfusion hn
  | @set ws x =>
    rcases exec_answer h with ⟨a, rfl, hrun⟩ | he
    · cases hrun
      exact .inr (.inr ⟨ws, rfl, (fun hc => by cases hc), Function.update_self _ _ _⟩)
    · cases he
  | @del x =>
    rcases exec_answer h with ⟨a, rfl, hrun⟩ | he
    · cases hrun
      exact .inr (.inl (Function.update_self _ _ _))
    · cases he
  | find =>
    rw [show p = .idle from ha] at hp
    cases hp
  | create | commit => cases hn

/-- An answered call of a thread that owes something fails only if its request
row is refused. -/
theorem owing_refused {op : Op} {a : Answer} {e : Err} {q : Local} {r} (hq : o.Allows q op)
    (ha : (lists u o).allow p op) (h : exec (.ok a) i o op sh = some (sh', r)) (hr : r = .error e)
    (hp : p.owing = true) : ∃ row, op = .prisma (.walletRequestCreate row) ∧
      (sh.db.walletRequests.find? row.txId).isSome := by
  cases op with
  | redis op => cases h; cases hr
  | rabbit op => cases h; cases hr
  | library op => cases h; cases hr
  | tx op =>
    rw [show p = .idle from ha] at hp
    cases hp
  | prisma op =>
    cases op with
    | walletRequestCreate row =>
      refine ⟨row, rfl, ?_⟩
      simp only [exec, Op.run, PrismaOp.run] at h
      split at h
      · cases h; cases hr
      · next hins => exact Table.find?_isSome.mpr (Table.insert?_eq_none.mp hins)
    | walletCreate v cur =>
      rw [show p = .idle from ha] at hp
      cases hp
    | userFindFirst | userFindByEmail | userFindById | userUpsert | userUpdate => exact hq.elim
    | _ => cases h; cases hr

/-- A write that is answered is in the journal. -/
theorem exec_wrote {op : Op} {q : Local} {r} (hq : o.Allows q op)
    (h : exec c i o op sh = some (sh', r)) (hop : op.writesWallets = true) (hr : ∃ a, r = .ok a) :
    sh'.Wrote i := by
  have noted {e : Event} (he : e.writesWallets = true)
      (hj : sh'.journal = sh.journal ++ [⟨i, o, e⟩]) : sh'.Wrote i :=
    ⟨_, hj ▸ List.mem_append_right _ (.head _), rfl, he⟩
  obtain ⟨a, rfl⟩ := hr
  cases op with
  | tx op =>
    cases op with
    | commit =>
      obtain ⟨j, hj, -⟩ := hq
      rcases exec_answer h with ⟨a, rfl, hrun⟩ | he
      · simp only [Op.run, TxOp.run, Option.map_eq_some_iff] at hrun
        obtain ⟨tx, -, hrun⟩ := hrun
        simp only [Shared.commit, hj] at hrun
        split at hrun
        · cases hrun
        · cases hrun; exact noted rfl rfl
      · cases he
    | _ => cases hop
  | prisma op =>
    cases op with
    | walletCreate v cur =>
      rcases exec_walletCreate h with ⟨-, e, he⟩ | ⟨-, w, t, -, -, rfl, -⟩
      · cases he
      · exact noted rfl rfl
    | _ => cases hop
  | _ => cases hop

/-! ## Debts -/

/-- The entry is right, or somebody still owes it something; who does has
changed a wallet. -/
structure Covered (u : Int) (s : State) (g : Machine.Ghost Origin Listing) : Prop where
  paid : s.shared.Matches u ∨
    ∃ i o p, Machine.Alive (lists u) Settles s.threads g i o p ∧ p.owing = true
  wrote : ∀ {i o p}, Machine.Alive (lists u) Settles s.threads g i o p → p.owing = true →
    s.shared.Wrote i

end

section
variable {u : Int} {s t : State} {l : Step} {g g' : Machine.Ghost Origin Listing} {sh sh' : Shared}

theorem Shared.Wrote.grow {i : Nat} (h : sh.Wrote i) (hj : ∃ es, sh'.journal = sh.journal ++ es) :
    sh'.Wrote i := by
  obtain ⟨e, he, rest⟩ := h
  obtain ⟨es, hj⟩ := hj
  exact ⟨e, hj ▸ List.mem_append_left _ he, rest⟩

theorem accept_entry {o : Origin} (h : o.accept sh = some sh') :
    sh'.walletsOf u = sh.walletsOf u ∧ sh'.cachedList u = sh.cachedList u := by
  unfold Shared.walletsOf Shared.cachedList
  rw [(Origin.accept_same h).wallets, accept_redis h]
  exact ⟨rfl, rfl⟩

theorem env_entry {e : EnvStep} (h : e.run sh = some sh') : sh'.walletsOf u = sh.walletsOf u ∧
    (sh'.cachedList u = sh.cachedList u ∨ sh'.cachedList u = none) := by
  constructor
  · unfold Shared.walletsOf
    rw [(EnvStep.run_same h).wallets]
  · cases cached : sh'.cachedList u with
    | none => exact .inr rfl
    | some ws => exact .inl (env_redis h cached).symm

/-- Jobs of a run without deposits drop what they owe. -/
theorem drops_of_leg {o : Origin} {j : Job} {leg : Leg} (hj : o.job? = some j) (hl : leg ∈ j.legs)
    (hf : ∀ d, o.job? ≠ some (.funding d)) : o.job?.any (leg.userId ∈ ·.drops) = true := by
  rcases Job.drops_of_leg hl with ⟨d, rfl⟩ | hd
  · exact absurd hj (hf d)
  · rw [hj]; exact decide_eq_true hd

/-- The thread that moves pays, or owes, or leaves the entry right. -/
theorem CachesRows.paid {i : Nat} {o : Origin} {op : Op} {k : Except Err op.Res → Proc Reply} {c : Choice}
    {r : Except Err op.Res} {p : Listing} {q : Local} {gp : Threads} (hc : CachesRows u s (.run i c))
    (hf : ∀ d, o.job? ≠ some (.funding d)) (hi : s.threads[i]? = some ⟨o, .call op k⟩)
    (sound : Sound s.shared gp) (hgp : gp i = some (o, q)) (hq : o.Allows q op)
    (ha : (lists u o).allow p op) (he : exec c i o op s.shared = some (sh, r))
    (wrote : p.owing = true → s.shared.Wrote i) (h : s.shared.Matches u ∨ p.owing = true) :
    sh.Matches u ∨ ((lists u o).next p op r).owing = true := by
  by_cases hn : ((lists u o).next p op r).owing = true
  · exact .inr hn
  have hn := Bool.not_eq_true _ ▸ hn
  refine .inl ?_
  -- the rows have changed only in a write that went through, after which the thread owes
  have rows : sh.walletsOf u = s.shared.walletsOf u := by
    rcases exec_walletsOf sound hgp hq he with hw | ⟨answered, hop⟩
    · exact hw
    have writes : op.writesWallets = true := by
      rcases hop with ⟨cur, rfl⟩ | ⟨rfl, -⟩ <;> rfl
    cases r with
    | error e =>
      obtain ⟨a, rfl⟩ := answered e rfl
      rw [hc.lost i a o op k rfl hi] at writes
      cases writes
    | ok x =>
      rcases hop with ⟨cur, rfl⟩ | ⟨rfl, j, hj, leg, hl, rfl⟩
      · rw [show (lists u o).next p (.prisma (.walletCreate u cur)) (.ok x) = .created x
          from if_pos rfl] at hn
        cases hn
      · rw [show (lists leg.userId o).next p (.tx .commit) (.ok x) = .owes
          from if_pos (drops_of_leg hj hl hf)] at hn
        cases hn
  have set {ws} (hop : op = .redis (.set (.userWallets u) ws)) (hcf : c ≠ .fail)
      (hcached : sh.cachedList u = some ws) : sh.Matches u := by
    subst hop
    intro ws' hws
    rw [hcached] at hws
    cases hws
    rw [rows]
    exact hc.set i c o ws k rfl hcf hi
  have kept (hm : s.shared.Matches u) : sh.Matches u := by
    rcases exec_cachedList he with hsame | ⟨ws, hop, hcf, hcached⟩ | ⟨-, hnone⟩
    · exact hm.same rows (.inl hsame)
    · exact set hop hcf hcached
    · exact hm.same rows (.inr hnone)
  rcases h with hm | hp
  · exact kept hm
  -- the debt has ended
  rcases owing_ends ha he hp hn with ⟨e, hr⟩ | hnone | ⟨ws, hop, hcf, hcached⟩
  · refine kept (hc.wrong i (.inr ⟨c, rfl, ?_⟩) (wrote hp))
    by_cases hok : ∃ a, c = .ok a
    · obtain ⟨a, rfl⟩ := hok
      obtain ⟨row, rfl, taken⟩ := owing_refused hq ha he hr hp
      exact .inr ⟨o, row, k, hi, taken⟩
    · exact .inl fun a hca => hok ⟨a, hca⟩
  · intro ws hws
    rw [hnone] at hws
    cases hws
  · exact set hop hcf hcached

theorem Covered.step (hc : CachesRows u s l) (hf : ∀ th ∈ s.threads, ∀ d, th.origin.job? ≠ some (.funding d))
    (known : s.Known) (ht : Machine.Tracks .crashed (lists u) Settles s.threads g) (h : Covered u s g)
    (hfol : Machine.Follows service .crashed (lists u) (fun _ => .idle) s g l t g') : Covered u t g' := by
  refine ⟨?_, fun {i o p} ha hp => ?_⟩
  · have stays {i o p} (ha : Machine.Alive (lists u) Settles s.threads g i o p)
        (hp : p.owing = true) (hr : ∀ c, l ≠ .run i c) (hk : l ≠ .kill i) : t.shared.Matches u ∨
        ∃ i o p, Machine.Alive (lists u) Settles t.threads g' i o p ∧ p.owing = true :=
      .inr ⟨i, o, p, hfol.alive_stays ha hr hk, hp⟩
    cases l with
    | start o =>
      rcases h.paid with hm | ⟨i, o', p, ha, hp⟩
      · cases hfol with
        | start hacc _ => exact .inl (hm.same (accept_entry hacc).1 (.inl (accept_entry hacc).2))
      · exact stays ha hp (fun c hl => by cases hl) fun hl => by cases hl
    | env e =>
      rcases h.paid with hm | ⟨i, o', p, ha, hp⟩
      · cases hfol with
        | env henv => exact .inl (hm.same (env_entry henv).1 (env_entry henv).2)
      · exact stays ha hp (fun c hl => by cases hl) fun hl => by cases hl
    | kill i =>
      have dead (hm : s.shared.Matches u) : t.shared.Matches u := by
        cases hfol with
        | kill _ _ => exact hm
      rcases h.paid with hm | ⟨j, o, p, ha, hp⟩
      · exact .inl (dead hm)
      · by_cases hij : j = i
        · subst hij
          exact .inl (dead (hc.wrong j (.inl rfl) (h.wrote ha hp)))
        · exact stays ha hp (fun c hl => by cases hl) fun hl => by cases hl; exact hij rfl
    | run i c =>
      obtain ⟨o, op, k, r, p, hi, alive, allowed, he, alive'⟩ := hfol.alive_moved ht
      obtain ⟨gp, hgp, sound⟩ := known
      obtain ⟨q, hq, hallow, -⟩ := hgp.called hi
      have pays (hpaid : s.shared.Matches u ∨ p.owing = true) : t.shared.Matches u ∨
          ∃ i o p, Machine.Alive (lists u) Settles t.threads g' i o p ∧ p.owing = true :=
        (hc.paid (hf _ (List.mem_of_getElem? hi)) hi sound hq hallow allowed he (h.wrote alive)
          hpaid).imp_right fun hn => ⟨i, o, _, alive', hn⟩
      rcases h.paid with hm | ⟨j, o', p', ha, hp⟩
      · exact pays (.inl hm)
      · by_cases hij : j = i
        · subst hij
          obtain ⟨-, rfl⟩ := ha.unique alive
          exact pays (.inr hp)
        · exact stays ha hp (fun c' hl => by cases hl; exact hij rfl) fun hl => by cases hl
  · have grown (hw : s.shared.Wrote i) : t.shared.Wrote i := hw.grow (step_journal hfol.step)
    rcases hfol.alive_cases ht ha with ⟨ha, -⟩ | ⟨-, rfl, -⟩ |
      ⟨c, op, k, sh, r, p₀, -, hi, ha₀, allowed, he, rfl, rfl⟩ | ⟨-, hend⟩
    · exact grown (h.wrote ha hp)
    · cases hp
    · rcases owing_next hp with hp | ⟨hop, hr⟩
      · exact grown (h.wrote ha₀ hp)
      · obtain ⟨gp, hgp, -⟩ := known
        obtain ⟨q, -, hallow, -⟩ := hgp.called hi
        exact exec_wrote hallow he hop hr
    · rw [show p.owing = false from hend] at hp
      cases hp

/-- Jobs of a run without deposits are no deposits. -/
theorem ListRun.job_ne {o : Origin} (h : ListRun s (.start o)) (d : FundWalletDto) :
    o.job? ≠ some (.funding d) := by
  intro hj
  cases o with
  | http tok r => cases hj
  | delivery m =>
    refine h.2 m d rfl ?_
    simp only [Origin.job?] at hj
    split at hj
    · next hd => cases hj; exact hd
    · cases hj

theorem Reach.no_deposits {C : State → Step → Prop} (hC : ∀ s l, C s l → ListRun s l) (hq : Quiet s)
    (h : Reach C s t) : ∀ th ∈ t.threads, ∀ d, th.origin.job? ≠ some (.funding d) :=
  Machine.Reach.origins (fun _ _ hc => (hC _ _ hc).job_ne)
    (fun th hth => by rw [hq.threads] at hth; cases hth) h

/-- When nothing is in progress the entry of a user is absent or right, in every
run without deposits in which only the present rows are cached and no thread that
has changed a wallet is stopped before it has brought the entry in line. -/
theorem Reach.list_matches (hq : Quiet s) (hm : s.shared.Matches u)
    (h : Reach (fun s l => ListRun s l ∧ CachesRows u s l) s t) (idle : t.idle = true) :
    t.shared.Matches u := by
  have nobody {i o p} : ¬ Machine.Alive (lists u) Settles s.threads (fun _ => none) i o p := by
    rintro ⟨-, -, hg, -⟩
    cases hg
  have start : Covered u s fun _ => none := ⟨.inl hm, fun ha => absurd ha nobody⟩
  obtain ⟨g, tracked, covered⟩ := Machine.Tracks.invariant (service_lists fun _ _ hc => hc.1.1.1.1)
    (.of_nil hq.threads) start
    (fun v g l w g' hc ht hI hf => hI.step hc.1.1.2 hc.1.2 hc.2 ht hf)
    (Reach.knowing_sound (fun _ _ hc => hc.1.1.1) hq
      (h.knowing fun _ hv => Reach.no_deposits (fun _ _ hc => hc.1) hq hv))
  rcases covered.paid with hm | ⟨i, o, p, ⟨prog, hi, -, hw⟩, hp⟩
  · exact hm
  · cases prog with
    | ret r =>
      rw [show p.owing = false from hw] at hp
      cases hp
    | call op k => exact absurd ⟨o, op, k, hi⟩ (Config.idle_iff.mp idle i)

end

end Pactic
