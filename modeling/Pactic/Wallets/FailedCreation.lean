import Pactic.Lib.Solo
import Pactic.Wallets.Commits

/-! # A creation that fails

`createWallet` inserts the wallet first and its request row after it, with
nothing around the two that would undo the first. -/
namespace Pactic
open Keyed Resumption

/-- A call of the thread may be answered or fail. -/
def Op.May (i : Nat) (o : Origin) (op : Op) (sh sh' : Shared) (r : Except Err op.Res) : Prop :=
  ∃ c, exec c i o op sh = some (sh', r)

/-- A conflict or a unique constraint. -/
def Err.Refusal (e : Err) : Prop := e = .p2002 ∨ ∃ message, e = .conflict message

/-- Whatever its calls answer, a call of `createWallet` that is refused leaves the
wallets and the request rows as they were. -/
def Shared.FailsClean (sh : Shared) (userId : Int) (currency txId : String) : Prop :=
  ∀ i o, Ensures (Op.May i o) (WalletsService.createWallet userId currency txId) sh fun r x =>
    ∀ e, r = .error e → e.Refusal →
      x.db.wallets = sh.db.wallets ∧ x.db.walletRequests = sh.db.walletRequests

/-- The user can have the wallet, but the txId has a request row that no lookup
before the insert takes for a duplicate. -/
structure Shared.Strands (sh : Shared) (userId : Int) (currency txId : String) : Prop where
  uncached : ∀ v, sh.redis (.walletRequest txId) = some v → v.status ≠ .success
  recorded : ∃ r, sh.db.walletRequests.find? txId = some r ∧ r.status ≠ .success
  walletless : ∀ w ∈ sh.db.wallets.rows, ¬ (w.userId = userId ∧ w.currency = currency)
  fresh : ∀ w ∈ sh.db.wallets.rows, w.id ≠ sh.db.nextWalletId

section
variable {sh x : Shared} {userId : Int} {currency txId : String} {i : Nat} {o : Origin}

/-- A call that fails as such is no refusal. -/
theorem ensures_call {α : Type} {op : Op} {f : op.Res → Proc α} {Q : Except Err α → Shared → Prop}
    (unavailable : ∀ x, Q (.error .unavailable) x)
    (ok : ∀ a x v, op.run a i o sh = some (x, .ok v) → Ensures (Op.May i o) (f v) x Q)
    (error : ∀ a x e, op.run a i o sh = some (x, .error e) → Q (.error e) x) :
    Ensures (Op.May i o) (call op >>= f) sh Q := by
  refine ensures_bind (ensures_perform fun x r hx => ?_)
  obtain ⟨c, hc⟩ := hx
  rcases exec_cases hc with ⟨-, rfl⟩ | ⟨a, r₀, hrun, rfl | rfl⟩
  · exact unavailable x
  · cases r with
    | ok v => exact ok a x v hrun
    | error e => exact error a x e hrun
  · exact unavailable x

theorem Err.not_refusal_unavailable : ¬ Err.Refusal .unavailable := by
  rintro (h | ⟨message, h⟩) <;> cases h

/-- The program throws nothing but the failure of a call. -/
def Unrefused {α : Type} (r : Except Err α) (_ : Shared) : Prop := ∀ e, r = .error e → e = .unavailable

theorem unrefused_bind {α β : Type} {p : Proc α} {f : α → Proc β}
    (hp : Ensures (Op.May i o) p sh Unrefused) (hf : ∀ a x, Ensures (Op.May i o) (f a) x Unrefused) :
    Ensures (Op.May i o) (p >>= f) sh Unrefused := by
  refine ensures_bind (hp.mono fun r x h => ?_)
  cases r with
  | ok a => exact hf a x
  | error e =>
    intro e' he
    cases he
    exact h e rfl

theorem unrefused_redis (op : RedisOp) : Ensures (Op.May i o) (call (.redis op)) sh Unrefused := by
  refine ensures_perform fun x r hx e he => ?_
  obtain ⟨c, hc⟩ := hx
  rcases exec_cases hc with ⟨-, rfl⟩ | ⟨a, r₀, hrun, rfl | rfl⟩
  · cases he
    rfl
  · cases he
    cases hrun
  · cases he
    rfl

theorem unrefused_sendToQueue (q : Queue) (data : Payload) (n : Option Nat) :
    Ensures (Op.May i o) (sendToQueue q data n) sh Unrefused := by
  refine ensures_tryCatch fun x r _ => ?_
  cases r with
  | ok _ => exact fun e he => by cases he
  | error _ => exact ensures_pure fun e he => by cases he

/-- Nothing that comes after the request row is refused. -/
theorem unrefused_finish (wallet : Wallet) (request : WalletRequest) :
    Ensures (Op.May i o) (do
      Redis.set (.walletRequest txId) (.row request)
      sendToQueue .notifications
        (.notification ⟨userId, "Wallet Created", .created currency, "wallet"⟩) none
      WalletsService.prependWallet userId wallet
      pure wallet) sh Unrefused := by
  refine unrefused_bind (unrefused_redis _) fun _ _ => unrefused_bind (unrefused_sendToQueue _ _ _)
    fun _ _ => unrefused_bind (unrefused_bind (unrefused_redis _) fun cached _ => ?_) fun _ _ =>
      ensures_pure fun e he => by cases he
  cases cached with
  | none => exact ensures_pure fun e he => by cases he
  | some _ => exact unrefused_redis _

/-- A wallet that is inserted is the only one of its user and currency. -/
theorem walletCreate_run {a : Answer} {w : Wallet}
    (h : (Op.prisma (.walletCreate userId currency)).run a i o sh = some (x, .ok w)) :
    x.db.walletRequests = sh.db.walletRequests ∧ x.db.wallets ≠ sh.db.wallets ∧
      (∀ v ∈ sh.db.wallets.rows, ¬ (v.userId = userId ∧ v.currency = currency)) ∧
      ∀ v ∈ sh.db.wallets.rows, v.id ≠ sh.db.nextWalletId := by
  rcases exec_walletCreate (c := .ok a) h with ⟨-, e, he⟩ | ⟨none, _, t, rfl, ins, rfl, -⟩
  · cases he
  · obtain ⟨hnone, hrows⟩ := Table.insert?_eq_some.mp ins
    refine ⟨rfl, fun he => ?_, none, fun v hv => ?_⟩
    · have rows : sh.db.wallets.rows ++ [_] = sh.db.wallets.rows := hrows ▸ congrArg Table.rows he
      simp at rows
    · exact Table.find?_eq_none.mp hnone v hv

theorem walletCreate_refused {a : Answer} {e : Err}
    (h : (Op.prisma (.walletCreate userId currency)).run a i o sh = some (x, .error e)) : x = sh := by
  simp only [Op.run, PrismaOp.run] at h
  split at h
  · cases h
    rfl
  · split at h
    · cases h
    · cases h
      rfl

theorem walletRequestCreate_refused {a : Answer} {e : Err} {row : WalletRequest}
    (h : (Op.prisma (.walletRequestCreate row)).run a i o sh = some (x, .error e)) :
    x = sh ∧ ∃ r, sh.db.walletRequests.find? row.txId = some r := by
  simp only [Op.run, PrismaOp.run] at h
  split at h
  · cases h
  · next hnone =>
    cases h
    exact ⟨rfl, Option.isSome_iff_exists.mp (Table.find?_isSome.mpr (Table.insert?_eq_none.mp hnone))⟩

/-- A wallet that can be inserted gets its request row, unless that of the txId
was found and let pass. -/
theorem insertWallet_fails_clean (h : ¬ sh.Strands userId currency txId)
    (uncached : ∀ v, sh.redis (.walletRequest txId) = some v → v.status ≠ .success)
    (found : ∀ r, sh.db.walletRequests.find? txId = some r → r.status ≠ .success) :
    Ensures (Op.May i o) (WalletsService.insertWallet userId currency txId) sh fun r x =>
      ∀ e, r = .error e → e.Refusal →
        x.db.wallets = sh.db.wallets ∧ x.db.walletRequests = sh.db.walletRequests := by
  have unavailable (x : Shared) (e : Err) (he : (.error .unavailable : Except Err Wallet) = .error e)
      (hr : e.Refusal) : x.db.wallets = sh.db.wallets ∧ x.db.walletRequests = sh.db.walletRequests := by
    cases he
    exact absurd hr Err.not_refusal_unavailable
  refine ensures_call unavailable (fun a x w hw => ?_) fun a x e he _ _ _ => ?_
  · obtain ⟨requests, -, walletless, fresh⟩ := walletCreate_run hw
    refine ensures_call unavailable (fun a y row _ => ?_) fun a y e he => ?_
    · refine (unrefused_finish w row).mono fun r z hr e he refusal => ?_
      exact absurd (hr e he ▸ refusal) Err.not_refusal_unavailable
    · obtain ⟨-, r, hr⟩ := walletRequestCreate_refused he
      rw [requests] at hr
      exact absurd ⟨uncached, ⟨r, hr, found r hr⟩, walletless, fresh⟩ h
  · rw [walletCreate_refused he]
    exact ⟨rfl, rfl⟩

theorem createWallet_fails_clean (h : ¬ sh.Strands userId currency txId) :
    sh.FailsClean userId currency txId := by
  intro i o
  have unavailable (x : Shared) (e : Err) (he : (.error .unavailable : Except Err Wallet) = .error e)
      (hr : e.Refusal) : x.db.wallets = sh.db.wallets ∧ x.db.walletRequests = sh.db.walletRequests := by
    cases he
    exact absurd hr Err.not_refusal_unavailable
  refine ensures_call unavailable (fun a x cached hget => ?_) fun a x e he => by cases he
  obtain ⟨rfl, rfl⟩ : x = sh ∧ cached = sh.redis (.walletRequest txId) := by
    cases hget
    exact ⟨rfl, rfl⟩
  cases hc : (x.redis (.walletRequest txId)).filter fun r => r.status = .success with
  | some v => exact ensures_throw fun _ _ _ => ⟨rfl, rfl⟩
  | none =>
    have uncached (v) (hv : x.redis (.walletRequest txId) = some v) : v.status ≠ .success := by
      intro hs
      rw [hv, Option.filter_some, if_pos (decide_eq_true hs)] at hc
      cases hc
    refine ensures_call unavailable (fun a y row hrow => ?_) fun a y e he => by cases he
    obtain ⟨rfl, rfl⟩ : y = x ∧ row = x.db.walletRequests.find? txId := by
      cases hrow
      exact ⟨rfl, rfl⟩
    unfold WalletsService.createUnlessRecorded
    cases hf : (y.db.walletRequests.find? txId).filter fun r => r.status = .success with
    | some r =>
      refine ensures_call unavailable (fun a z _ hz => ?_) fun a z e he => by cases he
      cases hz
      exact ensures_throw fun _ _ _ => ⟨rfl, rfl⟩
    | none =>
      have found (r) (hr : y.db.walletRequests.find? txId = some r) : r.status ≠ .success := by
        intro hs
        rw [hr, Option.filter_some, if_pos (decide_eq_true hs)] at hf
        cases hf
      refine ensures_call unavailable (fun a z first hz => ?_) fun a z e he => by cases he
      obtain rfl : z = y := by
        cases hz
        rfl
      cases first with
      | some w => exact ensures_throw fun _ _ _ => ⟨rfl, rfl⟩
      | none => exact insertWallet_fails_clean h uncached found

/-- The wallet is inserted, and then its request row is refused. -/
theorem Shared.Strands.leaves_wallet (h : sh.Strands userId currency txId) :
    ∃ x, Solo (Op.May i o) (WalletsService.createWallet userId currency txId) sh x (.error .p2002) ∧
      x.db.wallets ≠ sh.db.wallets := by
  obtain ⟨r, found, status⟩ := h.recorded
  have uncached : (sh.redis (.walletRequest txId)).filter (fun v => v.status = .success) = none :=
    Option.filter_eq_none_iff.mpr fun v hv => by simpa using h.uncached v hv
  have passed : (sh.db.walletRequests.find? txId).filter (fun r => r.status = .success) = none := by
    rw [found, Option.filter_some, if_neg (by simpa using status)]
  have first : sh.db.wallets.rows.find? (fun w =>
      w.userId = userId ∧ w.currency = currency ∧ w.deletedAt = none) = none :=
    List.find?_eq_none.mpr fun w hw hf => by
      have hf := of_decide_eq_true hf
      exact h.walletless w hw ⟨hf.1, hf.2.1⟩
  let wallet : Wallet := ⟨sh.db.nextWalletId, userId, 0, currency, 0, sh.db.now, none⟩
  obtain ⟨t, ins⟩ : ∃ t, sh.db.wallets.insert? wallet = some t := by
    cases hi : sh.db.wallets.insert? wallet with
    | some t => exact ⟨t, rfl⟩
    | none =>
      obtain ⟨w, hw, he⟩ := Table.insert?_eq_none.mp hi
      exact absurd he (h.fresh w hw)
  have walletless : ¬ sh.db.wallets.rows.any
      (fun w => w.userId = userId ∧ w.currency = currency) = true := by
    intro hany
    obtain ⟨w, hw, hf⟩ := List.any_eq_true.mp hany
    exact h.walletless w hw (of_decide_eq_true hf)
  let x : Shared := (sh.addWallet wallet t).note i o (.walletCreated wallet)
  have created : (Op.prisma (.walletCreate userId currency)).May i o sh x (.ok wallet) := by
    refine ⟨.ok {}, ?_⟩
    simp only [exec, Op.run, PrismaOp.run, if_neg walletless]
    rw [show sh.db.wallets.insert? ⟨sh.db.nextWalletId, userId, 0, currency, 0, sh.db.now, none⟩ =
      some t from ins]
    rfl
  have refused : (Op.prisma (.walletRequestCreate ⟨userId, currency, txId, .success⟩)).May i o x x
      (.error .p2002) := by
    refine ⟨.ok {}, ?_⟩
    have taken : x.db.walletRequests.insert? ⟨userId, currency, txId, .success⟩ = none :=
      Table.insert?_eq_none.mpr
        ⟨r, (Table.find?_eq_some.mp found).1, (Table.find?_eq_some.mp found).2⟩
    simp only [exec, Op.run, PrismaOp.run, taken]
  refine ⟨x, ?_, fun he => ?_⟩
  · refine solo_bind.mpr
      (.inl ⟨sh, sh.redis (.walletRequest txId), solo_perform.mpr ⟨.ok {}, rfl⟩, ?_⟩)
    simp only [uncached]
    refine solo_bind.mpr (.inl ⟨sh, _, solo_perform.mpr ⟨.ok {}, rfl⟩, ?_⟩)
    unfold WalletsService.createUnlessRecorded
    rw [passed]
    refine solo_bind.mpr (.inl ⟨sh, _, solo_perform.mpr ⟨.ok {}, rfl⟩, ?_⟩)
    rw [first]
    refine solo_bind.mpr (.inl ⟨x, wallet, solo_perform.mpr created, ?_⟩)
    exact solo_bind.mpr (.inr ⟨.p2002, solo_perform.mpr refused, rfl⟩)
  · have rows : sh.db.wallets.rows ++ [wallet] = sh.db.wallets.rows :=
      (Table.insert?_eq_some.mp ins).2 ▸ congrArg Table.rows he
    simp at rows

/-- A refused call of `createWallet` leaves everything as it was, exactly if the
user cannot have the wallet or the request row of the txId is none or was found. -/
theorem createWallet_fails_clean_iff (sh : Shared) (userId : Int) (currency txId : String) :
    sh.FailsClean userId currency txId ↔ ¬ sh.Strands userId currency txId := by
  refine ⟨fun clean h => ?_, createWallet_fails_clean⟩
  obtain ⟨x, hx, changed⟩ := h.leaves_wallet (i := 0)
    (o := .http userId (.createWallet ⟨userId, currency, txId⟩))
  exact changed (clean _ _ x _ hx _ rfl (.inl rfl)).1

end

/-! ## A deposit into a wallet that is not there

The deposit fails and leaves a request row that is marked failed. A wallet
created under the same txId passes every lookup. -/

def failedDeposit : FundWalletDto := ⟨1, 1, "USD", 10, "a"⟩

def failedDepositMessage : Message := ⟨.walletFunding, .job (.funding failedDeposit), none, 0⟩

def failedDepositRun : List Step :=
  .start (.http 1 (.fundWallet failedDeposit)) :: calls 0 4 ++
    .start (.delivery failedDepositMessage) :: calls 1 8

/-- `Strands`, as a test. -/
def Shared.strands? (sh : Shared) (userId : Int) (currency txId : String) : Bool :=
  (sh.redis (.walletRequest txId)).all (fun v => v.status ≠ .success) &&
    (sh.db.walletRequests.find? txId).any (fun r => r.status ≠ .success) &&
    sh.db.wallets.rows.all fun w =>
      ¬ (w.userId = userId ∧ w.currency = currency) ∧ w.id ≠ sh.db.nextWalletId

theorem Shared.strands_of_strands? {sh : Shared} {userId : Int} {currency txId : String}
    (h : sh.strands? userId currency txId = true) : sh.Strands userId currency txId := by
  simp only [Shared.strands?, Bool.and_eq_true] at h
  obtain ⟨⟨cached, recorded⟩, wallets⟩ := h
  have wallets (w) (hw : w ∈ sh.db.wallets.rows) := of_decide_eq_true (List.all_eq_true.mp wallets w hw)
  refine ⟨fun v hv => ?_, ?_, fun w hw => (wallets w hw).1, fun w hw => (wallets w hw).2⟩
  · rw [hv] at cached
    simpa using cached
  · obtain ⟨r, hr, hs⟩ := Option.any_eq_true .. |>.mp recorded
    exact ⟨r, hr, of_decide_eq_true hs⟩

theorem refused_creation_leaves_wallet :
    ∃ t, Reach WalletRun State.empty t ∧ ¬ t.shared.FailsClean 1 "USD" "a" := by
  have h : ((runSteps failedDepositRun State.empty).any fun t => t.shared.strands? 1 "USD" "a") =
      true := by decide +kernel
  obtain ⟨t, ht, hp⟩ := runSteps_any h
  refine ⟨t, reach_of_runSteps (by decide) ht, fun clean => ?_⟩
  obtain ⟨x, hx, changed⟩ := (Shared.strands_of_strands? hp).leaves_wallet (i := 0)
    (o := .http 1 (.createWallet ⟨1, "USD", "a"⟩))
  exact changed (clean _ _ x _ hx _ rfl (.inl rfl)).1

end Pactic
