import Pactic.Protocol.Books
import Pactic.Protocol.Calls
import Pactic.Protocol.Requests

/-! # The path of a deposit

The handler of a deposit that meets no obstacle makes nine calls up to its
commit, one after the other, and only announcements after it. `Progress` says
which call is next; any other outcome than the good one leads to `failed`. -/
namespace Pactic
open FixedPoint Keyed Resumption

inductive Progress where
  | looking                -- the txId is to be looked up in the cache
  | logging                -- the request row is to be inserted
  | checking               -- the wallet is to be validated
  | opening                -- the session is to begin
  | reading                -- the wallet is to be read in the session
  | writing (v : Int)      -- it was read in version `v`
  | marking                -- the request is to be marked
  | booking                -- the ledger row is to be inserted
  | committing
  | paid
  | failed

def FundWalletDto.AllowsPath (d : FundWalletDto) : Progress → Op → Prop
  | .looking, op => op = .redis (.get (.walletRequest d.txId))
  | .logging, op => op = .prisma (.walletRequestCreate (Job.funding d).pending)
  | .checking, op => op = .prisma (.walletFindUnique d.walletId)
  | .opening, op => op = .tx .begin
  | .reading, op => op = .tx (.walletFindUnique d.walletId)
  | .writing v, op => op = .tx (.walletUpdate d.walletId v (netAmount d.amount) (v + 1))
  | .marking, op => op = .tx (.walletRequestUpdate d.txId .success)
  | .booking, op => op = .tx (.transactionCreate (Job.funding d).rows)
  | .committing, op => op = .tx .commit
  | .paid, .redis (.set (.walletRequest t) _) => t = d.txId
  | .paid, .redis (.set (.userTransactions _) _) | .paid, .redis (.get _) => True
  | .paid, .rabbit (.assertQueue _) => True
  | .paid, .rabbit (.sendToQueue q _ _) => q = .notifications
  | .paid, _ => False
  | .failed, _ => True

/-- The good outcome of each call. -/
def Progress.advance (d : FundWalletDto) : Progress → (op : Op) → op.Res → Progress
  | .looking, .redis (.get (.walletRequest _)), none => .logging
  | .logging, _, _ => .checking
  | .checking, .prisma (.walletFindUnique _), some w =>
    if w.ValidFor d.userId d.currency then .opening else .failed
  | .opening, _, _ => .reading
  | .reading, .tx (.walletFindUnique _), some w => .writing w.version
  | .writing _, _, _ => .marking
  | .marking, _, _ => .booking
  | .booking, _, _ => .committing
  | .committing, _, _ => .paid
  | .paid, _, _ => .paid
  | _, _, _ => .failed

def Progress.next (d : FundWalletDto) (p : Progress) (op : Op) : Except Err op.Res → Progress
  | .ok a => p.advance d op a
  | .error _ => .failed

def depositPath (d : FundWalletDto) : Monitor Op Op.Res Err Progress := ⟨d.AllowsPath, Progress.next d⟩

/-- The program has come to `q` and returns a value of `A`, or has failed. -/
def Comes {α : Type} (q : Progress) (A : α → Prop) (r : Except Err α) (p : Progress) : Prop :=
  p = .failed ∨ p = q ∧ ∃ a, r = .ok a ∧ A a

section
variable {d : FundWalletDto} {p q q' : Progress} {α β : Type} {A : α → Prop} {B : β → Prop}

theorem Comes.value {a : α} (h : A a) : Comes q A (.ok a) q := .inr ⟨rfl, a, rfl, h⟩

/-- What a handler does after a failure is its own affair. -/
theorem wp_failed (c : Proc α) : (depositPath d).wp c (Comes q A) .failed := by
  induction c with
  | ret r => exact .inl rfl
  | call op k ih =>
    refine ⟨trivial, forall_except.mpr ⟨fun a => ?_, fun e => ih _⟩⟩
    have failed : (depositPath d).next .failed op (.ok a) = .failed := by cases op <;> rfl
    rw [failed]
    exact ih _

theorem Comes.bind {c : Proc α} {f : α → Proc β} (hc : (depositPath d).wp c (Comes q A) p)
    (hf : ∀ a, A a → (depositPath d).wp (f a) (Comes q' B) q) :
    (depositPath d).wp (c >>= f) (Comes q' B) p := by
  refine (Monitor.wp_bind _ _ _ _ _).mpr (Monitor.wp_mono _ hc fun r p' hp => ?_)
  rcases hp with rfl | ⟨rfl, a, rfl, ha⟩
  · cases r with
    | ok a => exact wp_failed _
    | error e => exact .inl rfl
  · exact hf a ha

/-- An error is caught after a failure only. -/
theorem Comes.tryCatch {c : Proc α} {h : Err → Proc α} (hc : (depositPath d).wp c (Comes q A) p) :
    (depositPath d).wp (tryCatch c h) (Comes q A) p := by
  refine (Monitor.wp_tryCatch _ _ _ _ _).mpr (Monitor.wp_mono _ hc fun r p' hp => ?_)
  cases r with
  | ok a => exact hp
  | error e =>
    rcases hp with rfl | ⟨-, a, ha, -⟩
    · exact wp_failed _
    · cases ha

/-- The one call there is to make. -/
theorem comes_call {op : Op} {f : op.Res → Proc α} (ha : d.AllowsPath p op)
    (hf : ∀ a, (depositPath d).wp (f a) (Comes q A) (p.advance d op a)) :
    (depositPath d).wp (call op >>= f) (Comes q A) p :=
  (Monitor.wp_perform_bind _ _ _ _ _).mpr ⟨ha, hf, fun _ => .inl rfl⟩

/-- A last call without an answer. -/
theorem comes_last {op : Op} {A : op.Res → Prop} (ha : d.AllowsPath p op)
    (hf : ∀ a, p.advance d op a = q ∧ A a) : (depositPath d).wp (call op) (Comes q A) p := by
  refine ⟨ha, forall_except.mpr ⟨fun a => ?_, fun _ => .inl rfl⟩⟩
  exact .inr ⟨(hf a).1, a, rfl, (hf a).2⟩

theorem alreadyProcessed_comes :
    (depositPath d).wp (alreadyProcessed d.txId) (Comes .logging (· = false)) .looking := by
  refine comes_call rfl fun cached => ?_
  cases cached with
  | none => exact Comes.value rfl
  | some v => exact wp_failed _

theorem preLog_comes :
    (depositPath d).wp (preLog d.userId d.currency d.txId) (Comes .checking (· = true)) .logging :=
  Comes.tryCatch (comes_call rfl fun _ => Comes.value rfl)

theorem fundingTransaction_comes :
    (depositPath d).wp (fundingTransaction d) (Comes .committing fun _ => True) .reading := by
  refine comes_call rfl fun found => ?_
  cases found with
  | none => exact wp_failed _
  | some w => exact comes_call rfl fun _ => comes_call rfl fun _ => comes_call rfl fun rows =>
      Comes.value trivial

theorem transaction_comes {body : Proc α} (hb : (depositPath d).wp body (Comes .committing A) .reading) :
    (depositPath d).wp (Prisma.transaction body) (Comes .paid A) .opening := by
  refine comes_call rfl fun _ => ?_
  exact Comes.bind (Comes.tryCatch hb) fun a ha => comes_call rfl fun _ => Comes.value ha

theorem prependTransaction_comes (u row) :
    (depositPath d).wp (prependTransaction u row) (Comes .paid fun _ => True) .paid := by
  refine comes_call trivial fun cached => ?_
  cases cached with
  | none => exact Comes.value trivial
  | some _ => exact comes_last trivial fun _ => ⟨rfl, trivial⟩

theorem notify_comes (u title body) :
    (depositPath d).wp (notify u title body) (Comes .paid fun _ => True) .paid :=
  Comes.tryCatch (comes_call trivial fun _ => comes_last rfl fun _ => ⟨rfl, trivial⟩)

theorem fund_comes : (depositPath d).wp (fund d) (Comes .paid fun _ => True) .checking := by
  refine comes_call rfl fun found => ?_
  cases found with
  | none => exact wp_failed _
  | some w =>
    by_cases hw : w.ValidFor d.userId d.currency
    · have opens : Progress.checking.advance d (.prisma (.walletFindUnique d.walletId)) (some w) =
          .opening := if_pos hw
      rw [opens, checkWallet, if_pos hw]
      show (depositPath d).wp (Prisma.transaction (fundingTransaction d) >>= _) _ _
      refine Comes.bind (transaction_comes fundingTransaction_comes) fun row _ => ?_
      refine comes_call rfl fun _ => ?_
      exact Comes.bind (prependTransaction_comes _ _) fun _ _ => notify_comes _ _ _
    · have fails : Progress.checking.advance d (.prisma (.walletFindUnique d.walletId)) (some w) =
          .failed := if_neg hw
      rw [fails]
      exact wp_failed _

theorem fundingHandler_comes :
    (depositPath d).wp (fundingHandler d) (Comes .paid fun _ => True) .looking := by
  refine Comes.tryCatch (Comes.bind alreadyProcessed_comes fun processed hp => ?_)
  subst hp
  refine Comes.bind preLog_comes fun mine hm => ?_
  subst hm
  exact fund_comes

/-- The whole callback of a deposit. -/
theorem delivery_comes {m : Message} (hq : m.queue = .walletFunding) (hd : m.data = .job (.funding d)) :
    (depositPath d).wp (Origin.delivery m).program (Comes .paid fun _ => True) .looking := by
  have callback : (Origin.delivery m).program =
      (consume .walletFunding (fundingHandler d) m >>= fun _ => pure Reply.done) := by
    simp only [Origin.program, deliver, hq, hd, Option.getD_some]
  rw [callback]
  exact Comes.bind (Comes.tryCatch fundingHandler_comes) fun _ _ => Comes.value trivial

end

/-! ## What the calls do -/

def Shared.fundings (sh : Shared) : List Message := sh.broker.ready.filter (·.queue = .walletFunding)

/-- A job that may deposit into this wallet. -/
def FundWalletDto.Into (d : FundWalletDto) (w : Wallet) : Prop :=
  d.walletId = w.id ∧ w.ValidFor d.userId d.currency

/-- The wallet is there and still belongs to its user. -/
def Shared.Open (sh : Shared) (w : Wallet) : Prop :=
  ∃ v, sh.db.wallets.find? w.id = some v ∧ v.ValidFor w.userId w.currency

/-- The ledger row of the deposit is not taken. -/
def Shared.Unbooked (sh : Shared) (txId : String) : Prop := sh.db.transactions.find? txId = none

/-- What the handler of the deposit relies on, wherever it is. -/
def Progress.Stands (d : FundWalletDto) (w : Wallet) (i : Nat) (sh : Shared) : Progress → Prop
  | .looking => sh.redis (.walletRequest d.txId) = none ∧ ¬ sh.Recorded d.txId ∧ sh.Unbooked d.txId
  | .logging => ¬ sh.Recorded d.txId ∧ sh.Unbooked d.txId
  | .checking | .opening => sh.Recorded d.txId ∧ sh.Unbooked d.txId
  | .reading | .writing _ => sh.Recorded d.txId ∧ sh.Unbooked d.txId ∧ sh.txs i = some {}
  | .marking | .booking => sh.Recorded d.txId ∧ sh.Unbooked d.txId ∧ ∃ tx, sh.txs i = some tx ∧
      tx.transactions = [] ∧ ∀ v ∈ tx.wallets, v.ValidFor w.userId w.currency
  | .committing => sh.Unbooked d.txId ∧ ∃ tx, sh.txs i = some tx ∧
      tx.transactions = (Job.funding d).rows.map TransactionData.store ∧
      ∀ v ∈ tx.wallets, v.ValidFor w.userId w.currency
  | .paid => ∃ e ∈ sh.journal, e.event = .committed (.funding d)
  | .failed => False

/-- Nothing changes that thread `i`, for the job with this txId, relies on. -/
structure Shared.Spares (i : Nat) (txId : String) (sh sh' : Shared) : Prop where
  cache : sh.redis (.walletRequest txId) = none → sh'.redis (.walletRequest txId) = none
  recorded : sh'.Recorded txId ↔ sh.Recorded txId
  booked : sh.Unbooked txId → sh'.Unbooked txId
  session : sh'.txs i = sh.txs i
  journal : ∀ e ∈ sh.journal, e ∈ sh'.journal

/-- The work of thread `i` for this deposit leaves all others alone. -/
structure Shared.Advances (d : FundWalletDto) (w : Wallet) (i : Nat) (sh sh' : Shared) : Prop where
  wallet : sh.Open w → sh'.Open w
  spares : ∀ k t, k ≠ i → t ≠ d.txId → sh.Spares k t sh'
  queue : sh'.fundings = sh.fundings
  journal : ∀ e ∈ sh'.journal, e ∈ sh.journal ∨ e.event = .requestCreated d.txId ∨
    e.event = .committed (.funding d)

section
variable {d : FundWalletDto} {w : Wallet} {i : Nat} {o : Origin} {sh sh' : Shared} {p : Progress}

theorem Progress.Stands.spared {t : String} (h : p.Stands d w i sh) (ht : d.txId = t)
    (hs : sh.Spares i t sh') : p.Stands d w i sh' := by
  subst ht
  obtain ⟨cache, recorded, booked, session, journal⟩ := hs
  cases p with
  | looking => exact ⟨cache h.1, fun hr => h.2.1 (recorded.mp hr), booked h.2.2⟩
  | logging => exact ⟨fun hr => h.1 (recorded.mp hr), booked h.2⟩
  | checking | opening => exact ⟨recorded.mpr h.1, booked h.2⟩
  | reading | writing => exact ⟨recorded.mpr h.1, booked h.2.1, session.trans h.2.2⟩
  | marking | booking => exact ⟨recorded.mpr h.1, booked h.2.1, session ▸ h.2.2⟩
  | committing => exact ⟨booked h.1, session ▸ h.2⟩
  | paid =>
    obtain ⟨e, he, hc⟩ := h
    exact ⟨e, journal e he, hc⟩
  | failed => exact h

/-- A statement of the session changes nothing outside it but locks. -/
theorem Shared.Advances.session (hdb : sh'.db = sh.db) (hr : sh'.redis = sh.redis)
    (hb : sh'.broker = sh.broker) (hj : sh'.journal = sh.journal)
    (ht : ∀ k ≠ i, sh'.txs k = sh.txs k) : sh.Advances d w i sh' where
  wallet h := by rwa [Open, hdb]
  spares k t hk _ := by
    refine ⟨fun hc => hr ▸ hc, ?_, fun hb => ?_, ht k hk, fun e he => hj ▸ he⟩
    · rw [Recorded, Recorded, hdb]
    · rwa [Unbooked, hdb]
  queue := by rw [fundings, fundings, hb]
  journal e he := .inl (hj ▸ he)

theorem Shared.Advances.log {t} (ins : sh.db.walletRequests.insert? (Job.funding d).pending = some t) :
    sh.Advances d w i ((sh.setRequests t).note i o (.requestCreated d.txId)) where
  wallet h := h
  spares k x _ hx := by
    refine ⟨id, ?_, id, rfl, fun e he => List.mem_append_left _ he⟩
    show ((t.find? x).isSome : Prop) ↔ _
    have other : ¬ (Job.funding d).pending.txId = x := Ne.symm hx
    rw [Table.find?_of_insert? ins, if_neg other]
    rfl
  queue := rfl
  journal e he := by
    rcases List.mem_append.mp he with he | he
    · exact .inl he
    · exact .inr (.inl (by rw [List.mem_singleton.mp he]))

/-- The session takes effect: the row of the deposit and those of its wallet. -/
theorem Shared.Advances.commit {tx : Tx} {t} (ht : tx.transactions = (Job.funding d).rows.map TransactionData.store)
    (hw : ∀ v ∈ tx.wallets, v.ValidFor w.userId w.currency)
    (ledger : tx.transactions.foldlM Table.insert? sh.db.transactions = some t) :
    sh.Advances d w i ((sh.install i tx t).note i o (.committed (.funding d))) where
  wallet h := Table.find?_foldl_put_of hw h
  spares k x hk hx := by
    refine ⟨id, ?_, fun hb => ?_, Function.update_of_ne hk _ _, fun e he => List.mem_append_left _ he⟩
    · show (((tx.requests.foldl setStatus sh.db.walletRequests).find? x).isSome : Prop) ↔ _
      rw [foldl_setStatus_isSome]
      rfl
    · refine Table.find?_eq_none.mpr fun row hrow => ?_
      have hrow : row ∈ t.rows := hrow
      rw [Table.rows_of_foldlM_insert? ledger, ht] at hrow
      rcases List.mem_append.mp hrow with hrow | hrow
      · exact Table.find?_eq_none.mp hb row hrow
      · rw [List.mem_singleton.mp hrow]
        exact Ne.symm hx
  queue := rfl
  journal e he := by
    rcases List.mem_append.mp he with he | he
    · exact .inl he
    · exact .inr (.inr (by rw [List.mem_singleton.mp he]))

/-- After the commit only the own entry, transaction lists and notifications change. -/
theorem Shared.Advances.announce {a : Answer} {op : Op} {r} (ha : d.AllowsPath .paid op)
    (he : exec (.ok a) i o op sh = some (sh', r)) :
    sh.Advances d w i sh' ∧ sh'.journal = sh.journal ∧ ∃ x, r = .ok x := by
  have cached {v : (k : CacheKey) → Option k.Value}
      (hv : ∀ t, t ≠ d.txId → sh.redis (.walletRequest t) = none → v (.walletRequest t) = none) :
      sh.Advances d w i { sh with redis := v } :=
    ⟨id, fun k t _ ht => ⟨hv t ht, .rfl, id, rfl, fun _ => id⟩, rfl, fun e he => .inl he⟩
  cases op with
  | redis op =>
    cases op with
    | get k => cases he; exact ⟨cached fun _ _ => id, rfl, _, rfl⟩
    | set k v =>
      cases he
      refine ⟨cached fun t ht hn => ?_, rfl, _, rfl⟩
      have other : CacheKey.walletRequest t ≠ k := by
        rintro rfl
        exact ht ha
      exact (Function.update_of_ne other _ _).trans hn
    | del k => exact ha.elim
  | rabbit op =>
    cases op with
    | assertQueue q => cases he; exact ⟨.session rfl rfl rfl rfl fun _ _ => rfl, rfl, _, rfl⟩
    | sendToQueue q data x =>
      cases he
      have hq : q = .notifications := ha
      refine ⟨⟨id, fun k t _ _ => ⟨id, .rfl, id, rfl, fun _ => id⟩, ?_, fun e he => .inl he⟩, rfl, _, rfl⟩
      show List.filter _ (sh.broker.ready ++ [_]) = _
      rw [List.filter_append, hq, List.filter_singleton]
      exact List.append_nil _
    | ack m => exact ha.elim
  | _ => exact ha.elim

theorem FundWalletDto.Into.valid {v : Wallet} (into : d.Into w) (h : v.ValidFor w.userId w.currency) :
    v.ValidFor d.userId d.currency := ⟨h.1.trans into.2.1, h.2.1.trans into.2.2.1, h.2.2⟩

theorem Shared.Unbooked.insert (h : sh.Unbooked d.txId) :
    ∃ t, ((Job.funding d).rows.map TransactionData.store).foldlM Table.insert? sh.db.transactions = some t := by
  obtain ⟨row, hrow, href⟩ : ∃ row, (Job.funding d).rows.map TransactionData.store = [row] ∧
      row.reference = d.txId := ⟨_, rfl, rfl⟩
  rw [hrow]
  cases hi : sh.db.transactions.insert? row with
  | none =>
    obtain ⟨x, hx, he⟩ := Table.insert?_eq_none.mp hi
    exact absurd (he.trans href) (Table.find?_eq_none.mp h x hx)
  | some t => exact ⟨t, by simp [hi]⟩

/-- A read in a session finds a version of the wallet. -/
def Op.Readable (op : Op) (a : Answer) (sh : Shared) : Prop :=
  ∀ id, op = .tx (.walletFindUnique id) → ((sh.versions.filter fun w => w.id = id)[a.pick]?).isSome

/-- An update finds the version it was made for. -/
def Op.Unbeaten (op : Op) (sh : Shared) : Prop :=
  ∀ id v inc nv, op = .tx (.walletUpdate id v inc nv) →
    ∃ w, sh.db.wallets.find? id = some w ∧ w.version = v

/-- The request row is new and is inserted. -/
theorem Progress.Stands.log {a : Answer} {r} (h : Progress.logging.Stands d w i sh)
    (he : exec (.ok a) i o (.prisma (.walletRequestCreate (Job.funding d).pending)) sh = some (sh', r)) :
    (Progress.logging.next d (.prisma (.walletRequestCreate (Job.funding d).pending)) r).Stands d w i sh' ∧
      sh.Advances d w i sh' := by
  obtain ⟨unrecorded, unbooked⟩ := h
  simp only [exec, Op.run, PrismaOp.run] at he
  split at he
  · next t ins =>
    cases he
    refine ⟨⟨?_, unbooked⟩, .log ins⟩
    show ((t.find? d.txId).isSome : Prop)
    have own : (Job.funding d).pending.txId = d.txId := rfl
    rw [Table.find?_of_insert? ins, if_pos own]
    rfl
  · next hnone => exact absurd (Table.find?_isSome.mpr (Table.insert?_eq_none.mp hnone)) unrecorded

/-- The wallet is there and valid. -/
theorem Progress.Stands.check {a : Answer} {r} (h : Progress.checking.Stands d w i sh) (into : d.Into w)
    (opened : sh.Open w)
    (he : exec (.ok a) i o (.prisma (.walletFindUnique d.walletId)) sh = some (sh', r)) :
    (Progress.checking.next d (.prisma (.walletFindUnique d.walletId)) r).Stands d w i sh' ∧
      sh.Advances d w i sh' := by
  obtain ⟨v, found, valid⟩ := opened
  cases he
  have found : sh.db.wallets.find? d.walletId = some v := by rw [into.1, found]
  have opens : Progress.checking.next d (.prisma (.walletFindUnique d.walletId)) (.ok (some v)) =
      .opening := if_pos (into.valid valid)
  rw [found, opens]
  exact ⟨h, .session rfl rfl rfl rfl fun _ _ => rfl⟩

/-- The wallet has the version that was read, and the row to be written is valid. -/
theorem Progress.Stands.write {a : Answer} {v : Int} {r} (h : (Progress.writing v).Stands d w i sh)
    (into : d.Into w) (opened : sh.Open w)
    (he : exec (.ok a) i o (.tx (.walletUpdate d.walletId v (netAmount d.amount) (v + 1))) sh =
      some (sh', r))
    (unbeaten : (Op.tx (.walletUpdate d.walletId v (netAmount d.amount) (v + 1))).Unbeaten sh) :
    ((Progress.writing v).next d (.tx (.walletUpdate d.walletId v (netAmount d.amount) (v + 1))) r).Stands
        d w i sh' ∧ sh.Advances d w i sh' := by
  obtain ⟨recorded, unbooked, began⟩ := h
  obtain ⟨x, found, version⟩ := unbeaten _ _ _ _ rfl
  have current : sh.current {} d.walletId = some x := found
  have valid : x.ValidFor w.userId w.currency := by
    obtain ⟨v', found', valid⟩ := opened
    rw [into.1, found'] at found
    cases found
    exact valid
  have written : TxOp.run.write i d.walletId v (netAmount d.amount) (v + 1) {} sh = some (sh', r) := by
    simp only [exec, Op.run, TxOp.run, began] at he
    split at he
    · split at he
      · exact he
      · cases he
    · exact he
  simp only [TxOp.run.write, current, if_pos version] at written
  cases written
  refine ⟨⟨recorded, unbooked, _, Function.update_self _ _ _, rfl, fun y hy => ?_⟩,
    .session rfl rfl rfl rfl fun k hk => Function.update_of_ne hk _ _⟩
  rw [List.mem_singleton.mp hy]
  exact valid

/-- Each call has its good outcome, and the handler goes on from firm ground. -/
theorem Progress.Stands.call {a : Answer} {op : Op} {r} (h : p.Stands d w i sh) (hj : o.job? = some (.funding d))
    (into : d.Into w) (opened : sh.Open w) (ha : d.AllowsPath p op)
    (he : exec (.ok a) i o op sh = some (sh', r)) (readable : op.Readable a sh) (unbeaten : op.Unbeaten sh) :
    (p.next d op r).Stands d w i sh' ∧ sh.Advances d w i sh' := by
  cases p with
  | looking =>
    obtain ⟨cached, rest⟩ := h
    obtain rfl : op = _ := ha
    cases he
    have none : (RedisOp.get (.walletRequest d.txId)).run sh.redis = (sh.redis, none) :=
      congrArg (Prod.mk _) cached
    rw [none]
    exact ⟨rest, .session rfl rfl rfl rfl fun _ _ => rfl⟩
  | logging =>
    obtain rfl : op = _ := ha
    exact h.log he
  | checking =>
    obtain rfl : op = _ := ha
    exact h.check into opened he
  | opening =>
    obtain rfl : op = _ := ha
    cases he
    exact ⟨⟨h.1, h.2, Function.update_self _ _ _⟩,
      .session rfl rfl rfl rfl fun k hk => Function.update_of_ne hk _ _⟩
  | reading =>
    obtain ⟨recorded, unbooked, began⟩ := h
    obtain rfl : op = _ := ha
    simp only [exec, Op.run, TxOp.run, began] at he
    cases he
    obtain ⟨v, hv⟩ := Option.isSome_iff_exists.mp (readable _ rfl)
    rw [hv]
    exact ⟨⟨recorded, unbooked, began⟩, .session rfl rfl rfl rfl fun _ _ => rfl⟩
  | writing v =>
    obtain rfl : op = _ := ha
    exact h.write into opened he unbeaten
  | marking =>
    obtain ⟨recorded, unbooked, tx, session, rows, valid⟩ := h
    obtain rfl : op = _ := ha
    simp only [exec, Op.run, TxOp.run, session] at he
    split at he
    · next hnone => rw [Shared.Recorded, hnone] at recorded; cases recorded
    · cases he
      exact ⟨⟨recorded, unbooked, _, Function.update_self _ _ _, rows, valid⟩,
        .session rfl rfl rfl rfl fun k hk => Function.update_of_ne hk _ _⟩
  | booking =>
    obtain ⟨recorded, unbooked, tx, session, rows, valid⟩ := h
    obtain rfl : op = _ := ha
    obtain ⟨t, ledger⟩ := unbooked.insert
    simp only [exec, Op.run, TxOp.run, session, rows, List.nil_append, ledger] at he
    cases he
    exact ⟨⟨unbooked, _, Function.update_self _ _ _, rfl, valid⟩,
      .session rfl rfl rfl rfl fun k hk => Function.update_of_ne hk _ _⟩
  | committing =>
    obtain ⟨unbooked, tx, session, rows, valid⟩ := h
    obtain rfl : op = _ := ha
    obtain ⟨t, ledger⟩ := unbooked.insert
    rw [← rows] at ledger
    simp only [exec, Op.run, TxOp.run, session, Option.map_some, Shared.commit, ledger, hj] at he
    cases he
    exact ⟨⟨_, List.mem_append_right _ (.head _), rfl⟩, .commit rows valid ledger⟩
  | paid =>
    obtain ⟨moves, same, x, rfl⟩ := Shared.Advances.announce (w := w) ha he
    obtain ⟨e, mem, committed⟩ := h
    exact ⟨⟨e, same ▸ mem, committed⟩, moves⟩
  | failed => exact h.elim

end

end Pactic
