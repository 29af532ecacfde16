import Pactic.Protocol.Calls
import Pactic.Wallets.Ledger
import Pactic.Wallets.Lists

/-! # What clients are shown

The list of wallets a client gets is put together from what the database and the
cache gave the thread, and a cached list from what they gave an earlier one. So
every wallet shown was once in the table, the token user's and not deleted. -/
namespace Pactic
open Keyed Resumption

/-- `listed` pairs the wallets with the user they were looked up for; `made` has the
wallets the thread has inserted, with what it asked for, and `recorded` its request rows. -/
structure Gathered where
  listed : List (Int × Wallet)
  made : List (Int × String × Wallet)
  recorded : List WalletRequest

def Gathered.nothing : Gathered := ⟨[], [], []⟩

/-- Only what was gathered for a user goes into the user's list. -/
def Gathered.Permits (p : Gathered) : Op → Prop
  | .redis (.set (.userWallets u) ws) => ∀ w ∈ ws, (u, w) ∈ p.listed
  | _ => True

def Gathered.next (p : Gathered) : (op : Op) → Except Err op.Res → Gathered
  | .redis (.get (.userWallets u)), .ok (some ws) => { p with listed := ws.map (u, ·) ++ p.listed }
  | .prisma (.walletFindMany u), .ok ws => { p with listed := ws.map (u, ·) ++ p.listed }
  | .prisma (.walletCreate u c), .ok w =>
    { p with listed := (u, w) :: p.listed, made := (u, c, w) :: p.made }
  | .prisma (.walletRequestCreate row), .ok _ => { p with recorded := row :: p.recorded }
  | _, _ => p

def gathering (_ : Origin) : Monitor Op Op.Res Err Gathered := ⟨Gathered.Permits, Gathered.next⟩

/-- What the answers of the two endpoints that show wallets are made of. -/
structure Told (o : Origin) (r : Except Err Reply) (p : Gathered) : Prop where
  list : ∀ tok u ws, o = .http tok (.getUserWallets u) → r = .ok (.wallets ws) →
    tok = u ∧ ∀ w ∈ ws, (u, w) ∈ p.listed
  wallet : ∀ tok b w, o = .http tok (.createWallet b) → r = .ok (.wallet w) →
    tok = b.userId ∧ (b.userId, b.currency, w) ∈ p.made ∧ ∃ row ∈ p.recorded, row.txId = b.txId

/-- A call that puts no list into the cache. -/
def Op.listless : Op → Bool
  | .redis (.set (.userWallets _) _) => false
  | _ => true

section
variable {α β : Type} {o : Origin} {p : Gathered}

theorem Op.listless_permits {op : Op} (h : op.listless = true) : p.Permits op := by
  cases op with
  | redis op => cases op with
    | set k v =>
      cases k with
      | userWallets u => cases h
      | _ => trivial
    | _ => trivial
  | _ => trivial

theorem listless_of_ofHandler {op : Op} (h : op.ofHandler = true) : op.listless = true := by
  cases op with
  | redis op => cases op with
    | set k v => cases k <;> first | rfl | cases h
    | _ => rfl
  | _ => rfl

theorem listless_gathers {c : Proc α} (h : c.Only fun op => op.listless = true) (p : Gathered) :
    (gathering o).wp c (fun _ _ => True) p := by
  have all : (gathering o).Maintains (fun _ => True) c :=
    .of_only (fun _ _ _ hop => ⟨Op.listless_permits hop, fun _ => trivial⟩) h
  exact all p trivial

theorem consume_listless {q : Queue} {handler : Proc Unit} (h : HandlerCalls handler) (m : Message) :
    (consume q handler m).Only fun op => op.listless = true := by
  have again (q x) : (sendToQueue q m.data x).Only fun op => op.listless = true :=
    .tryCatch (.bind (.perform rfl) fun _ => .perform rfl) fun _ => trivial
  refine .tryCatch (h.mono fun _ => listless_of_ofHandler) fun _ => ?_
  split
  · exact .bind (again _ _) fun _ => .perform rfl
  · exact .bind (again _ _) fun _ => .perform rfl

theorem fundWallet_listless (b : FundWalletDto) :
    (WalletsService.fundWallet b).Only fun op => op.listless = true := by
  refine .bind (.perform rfl) fun cached => ?_
  cases cached with
  | some v => trivial
  | none =>
    refine .bind (.perform rfl) fun found => ?_
    cases found with
    | some r => exact .bind (.perform rfl) fun _ => trivial
    | none =>
      exact .bind (.tryCatch (.bind (.perform rfl) fun _ => .perform rfl) fun _ => trivial)
        fun _ => trivial

theorem enqueueUnlessUsed_listless (c q : String) (j : Job) :
    (WalletsService.enqueueUnlessUsed c q j).Only fun op => op.listless = true := by
  refine .bind (.perform rfl) fun cached => ?_
  split
  · trivial
  refine .bind (.perform rfl) fun found => ?_
  cases found with
  | some r => exact .bind (.perform rfl) fun _ => trivial
  | none =>
    exact .bind (.tryCatch (.bind (.perform rfl) fun _ => .perform rfl) fun _ => trivial)
      fun _ => trivial

theorem validateTokenUser_gathers {u tok : Int} {c : Proc α} {Q : Except Err α → Gathered → Prop}
    (hn : ∀ e, Q (.error e) p) (hc : tok = u → (gathering o).wp c Q p) :
    (gathering o).wp (do validateTokenUser u tok; c) Q p := by
  unfold validateTokenUser
  split
  · exact hn _
  · next same => exact hc (not_not.mp same).symm

/-- The reply is the list from the cache or from the table. -/
theorem getUserWallets_gathers (u : Int) : (gathering o).wp (WalletsService.getUserWallets u)
    (fun r q => ∀ ws, r = .ok ws → ∀ w ∈ ws, (u, w) ∈ q.listed) p := by
  have listed (ws : List Wallet) (rest : List (Int × Wallet)) (w) (hw : w ∈ ws) :
      (u, w) ∈ ws.map (u, ·) ++ rest := List.mem_append_left _ (List.mem_map.mpr ⟨w, hw, rfl⟩)
  refine ((gathering o).wp_perform_bind _ _ _ _).mpr ⟨trivial, fun cached => ?_, nofun⟩
  cases cached with
  | some ws =>
    intro ws' h w hw
    cases h
    exact listed ws _ w hw
  | none =>
    refine ((gathering o).wp_perform_bind _ _ _ _).mpr ⟨trivial, fun ws => ?_, nofun⟩
    refine ((gathering o).wp_perform_bind _ _ _ _).mpr ⟨listed ws _, fun _ => ?_, nofun⟩
    intro ws' h w hw
    cases h
    exact listed ws _ w hw

/-- Nothing that was gathered is forgotten. -/
structure Gathered.Grows (p q : Gathered) : Prop where
  listed : p.listed ⊆ q.listed
  made : p.made ⊆ q.made
  recorded : p.recorded ⊆ q.recorded

theorem Gathered.Grows.rfl : p.Grows p := ⟨fun _ => id, fun _ => id, fun _ => id⟩

theorem Gathered.next_grows (p : Gathered) (op : Op) (r : Except Err op.Res) :
    p.Grows (p.next op r) := by
  unfold next
  split
  · exact ⟨List.subset_append_right _ _, fun _ => id, fun _ => id⟩
  · exact ⟨List.subset_append_right _ _, fun _ => id, fun _ => id⟩
  · exact ⟨List.subset_cons_self _ _, List.subset_cons_self _ _, fun _ => id⟩
  · exact ⟨fun _ => id, fun _ => id, List.subset_cons_self _ _⟩
  · exact .rfl

/-- The thread has made this wallet and recorded its request. -/
structure Gathered.Has (p : Gathered) (u : Int) (c : String) (w : Wallet) (t : String) : Prop where
  listed : (u, w) ∈ p.listed
  made : (u, c, w) ∈ p.made
  recorded : ∃ row ∈ p.recorded, row.txId = t

theorem Gathered.Has.more {q : Gathered} {u c w t} (h : p.Has u c w t) (hg : p.Grows q) :
    q.Has u c w t where
  listed := hg.listed h.listed
  made := hg.made h.made
  recorded := by
    obtain ⟨row, hr, ht⟩ := h.recorded
    exact ⟨row, hg.recorded hr, ht⟩

theorem call_has {u c w t} {op : Op} (h : ∀ p : Gathered, (u, w) ∈ p.listed → p.Permits op) :
    (gathering o).Maintains (fun p => p.Has u c w t) (call op) :=
  fun p hp => ⟨h p hp.listed, fun r => hp.more (p.next_grows op r)⟩

theorem prependWallet_has (u : Int) (c : String) (w : Wallet) (t : String) :
    (gathering o).Maintains (fun p => p.Has u c w t) (WalletsService.prependWallet u w) := by
  intro p hp
  refine ((gathering o).wp_perform_bind _ _ _ _).mpr ⟨trivial, fun cached => ?_, fun e => ?_⟩
  · cases cached with
    | none => exact hp
    | some ws =>
      have looked := hp.more (p.next_grows (.redis (.get (.userWallets u))) (.ok (some ws)))
      refine ⟨fun v hv => ?_, fun r => looked.more (Gathered.next_grows _ _ r)⟩
      rcases List.mem_cons.mp hv with rfl | hv
      · exact looked.listed
      · exact List.mem_append_left _ (List.mem_map.mpr ⟨v, hv, rfl⟩)
  · exact hp.more (p.next_grows (.redis (.get (.userWallets u))) (.error e))

/-- The reply is the wallet the call has made, and its request is recorded. -/
theorem insertWallet_gathers (u : Int) (c t : String) :
    (gathering o).wp (WalletsService.insertWallet u c t)
      (fun r q => ∀ w, r = .ok w → q.Has u c w t) p := by
  refine ((gathering o).wp_perform_bind _ _ _ _).mpr ⟨trivial, fun w => ?_, nofun⟩
  refine ((gathering o).wp_perform_bind _ _ _ _).mpr ⟨trivial, fun row => ?_, nofun⟩
  refine ((gathering o).wp_perform_bind _ _ _ _).mpr ⟨trivial, fun _ => ?_, nofun⟩
  have send : (gathering o).Maintains (fun p => p.Has u c w t)
      (sendToQueue .notifications (.notification ⟨u, "Wallet Created", .created c, "wallet"⟩) none) :=
    .tryCatch (.bind (call_has fun _ _ => trivial) fun _ => call_has fun _ _ => trivial) fun _ => .ret _
  have has : Gathered.Has { p with
      listed := (u, w) :: p.listed, made := (u, c, w) :: p.made,
      recorded := ⟨u, c, t, .success⟩ :: p.recorded } u c w t := ⟨.head _, .head _, _, .head _, rfl⟩
  refine ((gathering o).wp_bind _ _ _ _).mpr ((gathering o).wp_mono (send _ has) fun r q hq => ?_)
  cases r with
  | error e => nofun
  | ok _ =>
    refine ((gathering o).wp_bind _ _ _ _).mpr
      ((gathering o).wp_mono (prependWallet_has u c w t q hq) fun r q hq => ?_)
    cases r with
    | error e => nofun
    | ok _ =>
      intro w' h
      cases h
      exact hq

theorem createWallet_gathers (u : Int) (c t : String) :
    (gathering o).wp (WalletsService.createWallet u c t)
      (fun r q => ∀ w, r = .ok w → q.Has u c w t) p := by
  refine ((gathering o).wp_perform_bind _ _ _ _).mpr ⟨trivial, fun cached => ?_, nofun⟩
  split
  · nofun
  refine ((gathering o).wp_perform_bind _ _ _ _).mpr ⟨trivial, fun found => ?_, nofun⟩
  unfold WalletsService.createUnlessRecorded
  split
  · exact ((gathering o).wp_perform_bind _ _ _ _).mpr ⟨trivial, nofun, nofun⟩
  · refine ((gathering o).wp_perform_bind _ _ _ _).mpr ⟨trivial, fun owned => ?_, nofun⟩
    cases owned with
    | some w => nofun
    | none => exact insertWallet_gathers u c t

theorem request_gathers {r : Request} (hr : r.ofWallets = true) (tok : Int) :
    (gathering (.http tok r)).wp (r.program tok) (Told (.http tok r)) .nothing := by
  -- the replies of the other endpoints show no wallet
  have other {c : Proc Reply} (h : c.Only fun op => op.listless = true)
      (hl : ∀ u, r ≠ .getUserWallets u) (hw : ∀ b, r ≠ .createWallet b) :
      (gathering (.http tok r)).wp c (Told (.http tok r)) .nothing := by
    refine (gathering _).wp_mono (listless_gathers h _) fun _ _ _ => ⟨?_, ?_⟩
    · intro tok u ws ho
      cases ho
      exact absurd rfl (hl u)
    · intro tok b w ho
      cases ho
      exact absurd rfl (hw b)
  have checked {u : Int} {c : Proc Reply} (h : c.Only fun op => op.listless = true) :
      Prog.Only (fun op => op.listless = true) (do validateTokenUser u tok; c) := by
    refine .bind ?_ fun _ => h
    unfold validateTokenUser
    split <;> trivial
  cases r with
  | createWallet b =>
    refine validateTokenUser_gathers (fun e => ⟨nofun, nofun⟩) fun same => ?_
    refine ((gathering _).wp_bind _ _ _ _).mpr
      ((gathering _).wp_mono (createWallet_gathers _ _ _) fun r q hq => ?_)
    cases r with
    | error e => exact ⟨nofun, nofun⟩
    | ok w =>
      refine ⟨nofun, fun tok b' w' ho hr => ?_⟩
      cases ho
      cases hr
      exact ⟨same, (hq _ rfl).made, (hq _ rfl).recorded⟩
  | getUserWallets u =>
    refine validateTokenUser_gathers (fun e => ⟨nofun, nofun⟩) fun same => ?_
    refine ((gathering _).wp_bind _ _ _ _).mpr
      ((gathering _).wp_mono (getUserWallets_gathers u) fun r q hq => ?_)
    cases r with
    | error e => exact ⟨nofun, nofun⟩
    | ok ws =>
      refine ⟨fun tok u ws ho hr => ?_, nofun⟩
      cases ho
      cases hr
      exact ⟨same, hq _ rfl⟩
  | fundWallet b => exact other (checked (fundWallet_listless b)) nofun nofun
  | withdrawFromWallet b => exact other (checked (enqueueUnlessUsed_listless _ _ _)) nofun nofun
  | transferFunds b => exact other (checked (enqueueUnlessUsed_listless _ _ _)) nofun nofun
  | _ => cases hr

theorem service_gathers {C : State → Step → Prop} (hC : ∀ s l, C s l → WalletRun s l) :
    Machine.Obeys service gathering Told (fun _ => .nothing) C := by
  intro s o sh hc ha
  cases o with
  | http tok r => exact request_gathers (hC _ _ hc) tok
  | delivery m =>
    obtain ⟨c, hc, hp⟩ := Origin.program_delivery (Origin.accept_delivery ha).2.1
    rw [show service.program (.delivery m) = _ from hp]
    obtain ⟨handler, rfl, calls, -⟩ := deliver_eq_consume hc
    have all : Prog.Only (fun op => op.listless = true) (do consume m.queue handler m; pure Reply.done) :=
      .bind (consume_listless calls m) fun _ => trivial
    exact (gathering _).wp_mono (listless_gathers all _) fun _ _ _ => ⟨nofun, nofun⟩

end

/-! ## What was gathered was there -/

section
variable {s₀ sh sh' : Shared} {i : Nat} {o : Origin} {p : Gathered} {u : Int} {w : Wallet} {t : String}

/-- A wallet of the user, not deleted, that was committed at some time, or that
was in the user's cached list at the beginning. -/
def Genuine (s₀ sh : Shared) (u : Int) (w : Wallet) : Prop :=
  (∃ ws, s₀.cachedList u = some ws ∧ w ∈ ws) ∨
    w ∈ sh.versions ∧ w.userId = u ∧ w.deletedAt = none

structure Gathered.There (s₀ sh : Shared) (i : Nat) (o : Origin) (p : Gathered) : Prop where
  listed : ∀ u w, (u, w) ∈ p.listed → Genuine s₀ sh u w
  made : ∀ u c w, (u, c, w) ∈ p.made → w.userId = u ∧ w.currency = c ∧ w.New ∧
    ∃ e ∈ sh.journal, e.thread = i ∧ e.origin = o ∧ e.event = .walletCreated w
  recorded : ∀ r ∈ p.recorded, sh.Recorded r.txId

structure Displays (s₀ sh : Shared) (g : Machine.Ghost Origin Gathered) : Prop where
  cached : ∀ u ws, sh.cachedList u = some ws → ∀ w ∈ ws, Genuine s₀ sh u w
  threads : ∀ {i o p}, g i = some (o, p) → p.There s₀ sh i o

/-- Nothing is lost that a thread may have seen. -/
structure Shared.Retains (sh sh' : Shared) : Prop where
  versions : sh.versions ⊆ sh'.versions
  journal : sh.journal ⊆ sh'.journal
  recorded : ∀ t, sh.Recorded t → sh'.Recorded t

theorem Genuine.more (h : Genuine s₀ sh u w) (hr : sh.Retains sh') : Genuine s₀ sh' u w :=
  h.imp_right fun hv => ⟨hr.versions hv.1, hv.2⟩

theorem Gathered.There.more (h : p.There s₀ sh i o) (hr : sh.Retains sh') : p.There s₀ sh' i o where
  listed u w hw := (h.listed u w hw).more hr
  made u c w hw := by
    obtain ⟨hu, hc, new, e, he, rest⟩ := h.made u c w hw
    exact ⟨hu, hc, new, e, hr.journal he, rest⟩
  recorded r hm := hr.recorded _ (h.recorded r hm)

theorem Displays.more {g : Machine.Ghost Origin Gathered} (h : Displays s₀ sh g)
    (hc : ∀ u ws, sh'.cachedList u = some ws → sh.cachedList u = some ws)
    (hr : sh.Retains sh') : Displays s₀ sh' g where
  cached u ws hw w hm := (h.cached u ws (hc u ws hw) w hm).more hr
  threads hk := (h.threads hk).more hr

theorem Shared.SameBooks.retains (h : sh.SameBooks sh') : sh.Retains sh' where
  versions := by rw [h.versions]; exact fun _ => id
  journal := by rw [h.journal]; exact fun _ => id
  recorded t ht := by simpa only [Shared.Recorded, h.walletRequests] using ht

theorem Move.retains {q q' : Local} {op : Op} (h : Move i o sh q op sh' q') : sh.Retains sh' where
  versions _ hw := h.versions _ hw
  journal := by
    obtain ⟨es, he⟩ := h.journal
    rw [he]
    exact List.subset_append_left _ _
  recorded _ ht := h.recorded ht

/-- What a thread gathers by a call is there after it. -/
theorem Gathered.There.next {g : Threads} {c : Choice} {op : Op} {r} (h : p.There s₀ sh i o)
    (hc : ∀ u ws, sh.cachedList u = some ws → ∀ w ∈ ws, Genuine s₀ sh u w) (sound : Sound sh g)
    (retains : sh.Retains sh') (he : exec c i o op sh = some (sh', r)) :
    (p.next op r).There s₀ sh' i o := by
  have old := h.more retains
  have join {u : Int} {ws : List Wallet} (hws : ∀ w ∈ ws, Genuine s₀ sh' u w) (v w)
      (hm : (v, w) ∈ ws.map (u, ·) ++ p.listed) : Genuine s₀ sh' v w := by
    rcases List.mem_append.mp hm with hm | hm
    · obtain ⟨x, hx, heq⟩ := List.mem_map.mp hm
      cases heq
      exact hws _ hx
    · exact old.listed v w hm
  unfold Gathered.next
  split
  · next u ws =>
    obtain ⟨rfl, hv⟩ := exec_get_ok he
    exact { old with listed := join (hc u ws hv.symm) }
  · next u ws =>
    refine { old with listed := join fun w hw => ?_ }
    rcases exec_answer he with ⟨a, -, hrun⟩ | failed
    · simp only [Op.run, PrismaOp.run, Option.some.injEq, Prod.mk.injEq, Except.ok.injEq] at hrun
      rw [← hrun.2, List.mem_insertionSort, List.mem_filter] at hw
      have current := retains.versions (sound.history.current w hw.1)
      exact .inr ⟨current, (of_decide_eq_true hw.2).1, (of_decide_eq_true hw.2).2⟩
    · cases failed
  · next u cur w =>
    rcases exec_walletCreate he with ⟨-, e, failed⟩ | ⟨-, w', ws, hw, -, rfl, answer⟩
    · cases failed
    rcases answer with answer | answer
    · cases answer
      have mine : Genuine s₀ ((sh.addWallet w ws).note i o (.walletCreated w)) u w :=
        .inr ⟨List.mem_append_right _ (List.mem_singleton_self _), by rw [hw], by rw [hw]⟩
      refine ⟨fun v x hx => ?_, fun v cur' x hx => ?_, old.recorded⟩
      · rcases List.mem_cons.mp hx with heq | hx
        · cases heq
          exact mine
        · exact old.listed v x hx
      · rcases List.mem_cons.mp hx with heq | hx
        · cases heq
          refine ⟨by rw [hw], by rw [hw], ⟨by rw [hw], by rw [hw], by rw [hw]⟩, ?_⟩
          exact ⟨_, List.mem_append_right _ (List.mem_singleton_self _), rfl, rfl, rfl⟩
        · exact old.made v cur' x hx
    · cases answer
  · next row r =>
    refine { old with recorded := fun r hr => ?_ }
    rcases List.mem_cons.mp hr with rfl | hr
    · rcases exec_answer he with ⟨a, -, hrun⟩ | failed
      · simp only [Op.run, PrismaOp.run] at hrun
        split at hrun
        · next rows ins =>
          cases hrun
          simp [Shared.Recorded, Shared.note, Table.find?_of_insert? ins]
        · cases hrun
      · cases failed
    · exact old.recorded r hr
  · exact old

theorem Displays.call {G : Machine.Ghost Origin Gathered} {g : Threads} {q : Local} {c : Choice}
    {op : Op} {r} (h : Displays s₀ sh G) (hG : G i = some (o, p)) (sound : Sound sh g)
    (hg : g i = some (o, q)) (ha : o.Allows q op) (permits : p.Permits op)
    (he : exec c i o op sh = some (sh', r)) :
    Displays s₀ sh' (Function.update G i (some (o, p.next op r))) := by
  have retains := (exec_move ha he).retains
  have own := h.threads hG
  constructor
  · intro u ws hws w hw
    rcases exec_cachedList (u := u) he with same | ⟨ws', rfl, -, set⟩ | ⟨-, gone⟩
    · exact (h.cached u ws (same ▸ hws) w hw).more retains
    · rw [set] at hws
      cases hws
      exact (own.listed u w (permits w hw)).more retains
    · rw [gone] at hws
      cases hws
  · intro k o' p' hk
    by_cases hki : k = i
    · subst hki
      rw [Function.update_self] at hk
      cases hk
      exact own.next h.cached sound retains he
    · rw [Function.update_of_ne hki] at hk
      exact (h.threads hk).more retains

end

section
variable {s t : State}

theorem Displays.first (s₀ : Shared) : Displays s₀ s₀ fun _ => none where
  cached _ ws hws _ hw := .inl ⟨ws, hws, hw⟩
  threads := nofun

theorem Displays.follow {s₀ : Shared} {G G' : Machine.Ghost Origin Gathered} {l : Step}
    (h : Displays s₀ s.shared G) (known : s.Known)
    (hf : Machine.Follows service .crashed gathering (fun _ => .nothing) s G l t G') :
    Displays s₀ t.shared G' := by
  obtain ⟨g, ht, sound⟩ := known
  cases hf with
  | @start o sh ha _ =>
    have cached (u) (ws : List Wallet) (hw : sh.cachedList u = some ws) :
        s.shared.cachedList u = some ws := by
      rwa [Shared.cachedList, accept_redis ha] at hw
    have old := h.more cached (Origin.accept_same ha).retains
    refine ⟨old.cached, fun {k o' p} hk => ?_⟩
    by_cases hn : k = s.threads.length
    · subst hn
      rw [Function.update_self] at hk
      cases hk
      exact ⟨nofun, nofun, nofun⟩
    · rw [Function.update_of_ne hn] at hk
      exact old.threads hk
  | run hi hG permits he =>
    obtain ⟨q, hg, allowed, -⟩ := ht.called hi
    exact h.call hG sound hg allowed permits he
  | env he => exact h.more (fun u ws hw => env_redis he hw) (EnvStep.run_same he).retains
  | @kill i _ _ _ _ _ _ =>
    exact h.more (fun _ _ => id) ⟨fun _ => id, fun _ => id, fun _ => id⟩

theorem Reach.displays (hq : Quiet s) (h : Reach WalletRun s t) :
    ∃ G, Machine.Tracks .crashed gathering Told t.threads G ∧ Displays s.shared t.shared G := by
  have obeys : Machine.Obeys service gathering Told (fun _ => .nothing)
      (fun u l => WalletRun u l ∧ State.Known u) := service_gathers fun _ _ h => h.1
  exact Machine.Tracks.invariant (I := fun u G => Displays s.shared u.shared G) obeys
    (.of_nil hq.threads) (.first _) (fun _ _ _ _ _ hc _ hI hf => hI.follow hc.2 hf)
    (h.knowing_sound (fun _ _ => id) hq)

/-- A version is committed together with its row. -/
theorem Move.version_there {sh sh' : Shared} {g : Threads} {i : Nat} {o : Origin} {q q' : Local}
    {op : Op} (h : Move i o sh q op sh' q') (sound : Sound sh g) (hg : g i = some (o, q))
    {w : Wallet} (hw : w ∈ sh'.versions) : w ∈ sh.versions ∨ w ∈ sh'.db.wallets.rows := by
  cases h with
  | look same _ _ => exact .inl (same.versions ▸ hw)
  | stop same _ _ => exact .inl (same.versions ▸ hw)
  | @createWallet u c v ws new ins =>
    rcases List.mem_append.mp hw with hw | hw
    · exact .inl hw
    · refine .inr ?_
      show w ∈ ws.rows
      rw [show ws.rows = _ from (Table.insert?_eq_some.mp ins).2]
      exact List.mem_append_right _ hw
  | @commit j tx ledger _ job session opened _ _ _ =>
    rcases List.mem_append.mp hw with hw | hw
    · exact .inl hw
    · have written := sound.session hg job session opened
      have nodup : (tx.wallets.map Wallet.id).Nodup := written.ids ▸ written.nodup
      have found : (tx.wallets.foldl Table.put sh.db.wallets).find? w.id = some w := by
        rw [show (tx.wallets.foldl Table.put sh.db.wallets).find? w.id = _ from written.find? w.id,
          Table.find?_of_nodup nodup hw, Option.some_or]
      exact .inr (Table.find?_eq_some.mp found).1
  | _ => exact .inl hw

/-- A version that was committed was in the table then. -/
theorem Reach.version_was_there (hq : Quiet s) (h : Reach WalletRun s t) {w : Wallet}
    (hw : w ∈ t.shared.versions) :
    ∃ u, Reach WalletRun s u ∧ Reach WalletRun u t ∧ w ∈ u.shared.db.wallets.rows := by
  induction h with
  | refl => exact ⟨s, .refl, .refl, hq.versions ▸ hw⟩
  | @tail t v l hr hc hs ih =>
    have before (hv : w ∈ t.shared.versions) :
        ∃ u, Reach WalletRun s u ∧ Reach WalletRun u v ∧ w ∈ u.shared.db.wallets.rows := by
      obtain ⟨u, hu, hut, hrow⟩ := ih hv
      exact ⟨u, hu, hut.tail hc hs, hrow⟩
    obtain ⟨g, ht, sound⟩ := Reach.sound (fun _ _ => id) hq hr
    rcases step_cases ht hs with same | ⟨i, back⟩ | ⟨i, c, o, op, k, p, p', -, -, hg, hm⟩
    · exact before (same.versions ▸ hw)
    · rw [back] at hw
      exact before hw
    · rcases hm.version_there sound hg hw with old | now
      · exact before old
      · exact ⟨v, hr.tail hc hs, .refl, now⟩

/-- A client is shown the wallets of the token's user only: undeleted ones, each
as it was in the table at some moment of the run, unless the list was cached
before. -/
theorem wallets_shown_were_there (hq : Quiet s) (h : Reach WalletRun s t) {tok u : Int}
    {ws : List Wallet} (shown : ⟨.http tok (.getUserWallets u), .ret (.ok (.wallets ws))⟩ ∈ t.threads) :
    tok = u ∧ ∀ w ∈ ws, (∃ cached, s.shared.cachedList u = some cached ∧ w ∈ cached) ∨
      (w.userId = u ∧ w.deletedAt = none ∧
        ∃ v, Reach WalletRun s v ∧ Reach WalletRun v t ∧ w ∈ v.shared.db.wallets.rows) := by
  obtain ⟨G, ht, displays⟩ := Reach.displays hq h
  obtain ⟨i, hi⟩ := List.mem_iff_getElem?.mp shown
  obtain ⟨p, hG, told | crashed⟩ := ht.obeys i _ hi
  · obtain ⟨same, listed⟩ := told.list _ _ _ rfl rfl
    refine ⟨same, fun w hw => ?_⟩
    rcases (displays.threads hG).listed u w (listed w hw) with cached | ⟨version, hu, hd⟩
    · exact .inl cached
    · exact .inr ⟨hu, hd, Reach.version_was_there hq h version⟩
  · cases crashed

/-- The wallets this thread has answered with: the token, the user and the list. -/
def ServiceThread.listed? : ServiceThread → Option (Int × Int × List Wallet)
  | ⟨.http tok (.getUserWallets u), .ret (.ok (.wallets ws))⟩ => some (tok, u, ws)
  | _ => none

theorem ServiceThread.listed?_eq_some {th : ServiceThread} {tok u : Int} {ws : List Wallet}
    (h : th.listed? = some (tok, u, ws)) :
    th = ⟨.http tok (.getUserWallets u), .ret (.ok (.wallets ws))⟩ := by
  unfold listed? at h
  split at h
  · cases h
    rfl
  · cases h

/-- User 1 opens a wallet and lists it. -/
def walletListed : List Step :=
  .start (.http 1 (.createWallet ⟨1, "USD", "w"⟩)) :: calls 0 9 ++
  .start (.http 1 (.getUserWallets 1)) :: calls 1 3

theorem wallets_shown_were_there_one : ∃ (t : State) (ws : List Wallet),
    runSteps walletListed State.empty = some t ∧ ws.length = 1 ∧ ∀ w ∈ ws, (∃ cached, State.empty.shared.cachedList 1 = some cached ∧ w ∈ cached) ∨
      (w.userId = 1 ∧ w.deletedAt = none ∧ ∃ v, Reach WalletRun State.empty v ∧
        Reach WalletRun v t ∧ w ∈ v.shared.db.wallets.rows) := by
  have h : (runSteps walletListed State.empty).any (fun t =>
      (t.threads.getLast?.bind ServiceThread.listed?).any fun x =>
        x.1 = 1 ∧ x.2.1 = 1 ∧ x.2.2.length = 1) = true := by decide +kernel
  obtain ⟨t, ht, hp⟩ := runSteps_any h
  obtain ⟨⟨tok, u, ws⟩, hx, hone⟩ := Option.any_eq_true _ _ |>.mp hp
  obtain ⟨rfl, rfl, one⟩ := of_decide_eq_true hone
  obtain ⟨th, hth, listed⟩ := Option.bind_eq_some_iff.mp hx
  have shown := List.mem_of_getLast? hth
  rw [ServiceThread.listed?_eq_some listed] at shown
  exact ⟨t, ws, ht, one, (wallets_shown_were_there State.empty_quiet (reach_of_runSteps rfl ht) shown).2⟩

/-- Who is told that a wallet was created has it: this request, sent by its
owner, has made it as asked, the request's row is there, and so is the wallet. -/
theorem created_wallets_are_there (hq : Quiet s) (h : Reach WalletRun s t) {i : Nat} {tok : Int}
    {b : CreateWalletDto} {w : Wallet}
    (told : t.threads[i]? = some ⟨.http tok (.createWallet b), .ret (.ok (.wallet w))⟩) :
    tok = b.userId ∧ w.userId = b.userId ∧ w.currency = b.currency ∧ w.New ∧
      t.shared.Recorded b.txId ∧
      (∃ e ∈ t.shared.journal, e.thread = i ∧ e.origin = .http tok (.createWallet b) ∧
        e.event = .walletCreated w) ∧
      ∃ w' ∈ t.shared.db.wallets.rows, w.Later w' := by
  obtain ⟨G, ht, displays⟩ := Reach.displays hq h
  obtain ⟨p, hG, told | crashed⟩ := ht.obeys i _ told
  · obtain ⟨same, made, row, hr, ht⟩ := told.wallet _ _ _ rfl rfl
    have own := displays.threads hG
    obtain ⟨hu, hc, new, e, he, hi, ho, hev⟩ := own.made _ _ w made
    have there := Book.created_later (h.explains (fun _ _ => id) hq) (List.mem_map.mpr ⟨e, he, hev⟩)
    exact ⟨same, hu, hc, new, ht ▸ own.recorded row hr, ⟨e, he, hi, ho, hev⟩, there⟩
  · cases crashed

/-- The wallet this thread has answered with. -/
def ServiceThread.opened? : ServiceThread → Option (Int × CreateWalletDto × Wallet)
  | ⟨.http tok (.createWallet b), .ret (.ok (.wallet w))⟩ => some (tok, b, w)
  | _ => none

theorem ServiceThread.opened?_eq_some {th : ServiceThread} {tok : Int} {b : CreateWalletDto}
    {w : Wallet} (h : th.opened? = some (tok, b, w)) :
    th = ⟨.http tok (.createWallet b), .ret (.ok (.wallet w))⟩ := by
  unfold opened? at h
  split at h
  · cases h
    rfl
  · cases h

theorem created_wallets_are_there_one : ∃ (t : State) (w : Wallet),
    runSteps (.start (.http 1 (.createWallet ⟨1, "USD", "w"⟩)) :: calls 0 9) State.empty = some t ∧
    w.userId = 1 ∧ w.currency = "USD" ∧ t.shared.Recorded "w" ∧
    (∃ e ∈ t.shared.journal, e.thread = 0 ∧ e.event = .walletCreated w) ∧
    ∃ w' ∈ t.shared.db.wallets.rows, w.Later w' := by
  have h : (runSteps (.start (.http 1 (.createWallet ⟨1, "USD", "w"⟩)) :: calls 0 9)
      State.empty).any (fun t => (t.threads[0]?.bind ServiceThread.opened?).any fun x =>
        x.1 = 1 ∧ x.2.1.userId = 1 ∧ x.2.1.currency = "USD" ∧ x.2.1.txId = "w") = true := by
    decide +kernel
  obtain ⟨t, ht, hp⟩ := runSteps_any h
  obtain ⟨⟨tok, b, w⟩, hx, hone⟩ := Option.any_eq_true _ _ |>.mp hp
  obtain ⟨-, hu, hc, htx⟩ := of_decide_eq_true hone
  obtain ⟨th, told, opened⟩ := Option.bind_eq_some_iff.mp hx
  rw [ServiceThread.opened?_eq_some opened] at told
  obtain ⟨-, owner, currency, -, recorded, ⟨e, he, hi, -, hev⟩, there⟩ :=
    created_wallets_are_there State.empty_quiet (reach_of_runSteps rfl ht) told
  exact ⟨t, w, ht, owner.trans hu, currency.trans hc, htx ▸ recorded, ⟨e, he, hi, hev⟩, there⟩

end

end Pactic
