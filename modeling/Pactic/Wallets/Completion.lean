import Pactic.Lib.Total
import Pactic.Protocol.Calls
import Pactic.Protocol.Books
import Pactic.Wallets.Status

/-! # A delivery carries out its job

Left to itself, with its calls answered from the current rows, a delivery comes
to its end. There it has done what the book does at one instant: it has applied
the job, or it has changed nothing and marked the request as failed. -/
namespace Pactic
open FixedPoint Keyed Resumption

/-! ## Calls that read what is there now -/

/-- A session may read an old version of a wallet; this one reads the current row. -/
def Op.ReadsCurrent (sh : Shared) : (op : Op) → Except Err op.Res → Prop
  | .tx (.walletFindUnique id), r => r = .ok (sh.db.wallets.find? id)
  | _, _ => True

def Op.Current (i : Nat) (o : Origin) (op : Op) (sh sh' : Shared) (r : Except Err op.Res) : Prop :=
  (∃ a, exec (.ok a) i o op sh = some (sh', r)) ∧ op.ReadsCurrent sh r

abbrev Completes {α : Type} (i : Nat) (o : Origin) (c : Proc α) (sh : Shared)
    (Q : Except Err α → Shared → Prop) : Prop := Finishes (Op.Current i o) c sh Q

/-- Every version of a wallet that is current can be read. -/
def Shared.Readable (sh : Shared) : Prop := ∀ w ∈ sh.db.wallets.rows, w ∈ sh.versions

section
variable {i : Nat} {o : Origin} {sh sh₀ : Shared} {j : Job} {n : Nat} {lg md : Bool} {α β : Type}

/-- A call whose outcome does not depend on the answer. -/
theorem current_iff {op : Op} {x : Shared} {v : Except Err op.Res}
    (h : ∀ a, op.run a i o sh = some (x, v)) (hr : op.ReadsCurrent sh v) (sh' : Shared)
    (r : Except Err op.Res) : Op.Current i o op sh sh' r ↔ sh' = x ∧ r = v := by
  constructor
  · rintro ⟨⟨a, ha⟩, -⟩
    have same := (h a).symm.trans ha
    cases same
    exact ⟨rfl, rfl⟩
  · rintro ⟨rfl, rfl⟩
    exact ⟨⟨{}, h {}⟩, hr⟩

theorem completes_call {op : Op} {x : Shared} {a : op.Res} {f : op.Res → Proc β}
    {Q : Except Err β → Shared → Prop} (h : ∀ a', op.run a' i o sh = some (x, .ok a))
    (hr : op.ReadsCurrent sh (.ok a)) (hf : Completes i o (f a) x Q) :
    Completes i o (call op >>= f) sh Q :=
  finishes_call (current_iff h hr) hf

theorem completes_refused {op : Op} {x : Shared} {e : Err} {f : op.Res → Proc β}
    {Q : Except Err β → Shared → Prop} (h : ∀ a', op.run a' i o sh = some (x, .error e))
    (hr : op.ReadsCurrent sh (.error e)) (hQ : Q (.error e) x) :
    Completes i o (call op >>= f) sh Q :=
  finishes_bind.mpr (finishes_perform (current_iff h hr) hQ)

theorem completes_checkWallet {wallet : Option Wallet} {u : Int} {c msg : String} {f : Wallet → Proc β}
    {Q : Except Err β → Shared → Prop}
    (valid : ∀ w, wallet = some w → w.ValidFor u c → Completes i o (f w) sh Q)
    (invalid : (∀ w, wallet = some w → ¬ w.ValidFor u c) → Q (.error (.business msg)) sh) :
    Completes i o (checkWallet wallet u c msg >>= f) sh Q := by
  cases wallet with
  | none => exact invalid fun w hw => by cases hw
  | some w =>
    by_cases hw : w.ValidFor u c
    · rw [checkWallet, if_pos hw]
      exact valid w rfl hw
    · rw [checkWallet, if_neg hw]
      refine invalid fun v hv => ?_
      cases hv
      exact hw

/-! ## The statements of a session -/

/-- The session of a job that started in `sh₀` and has written `n` legs. Nothing
else has changed, and nobody else holds the locks it takes. -/
structure OwnSession (i : Nat) (j : Job) (sh₀ : Shared) (n : Nat) (lg md : Bool) (sh : Shared) : Prop where
  rest : { sh with txs := sh₀.txs, locks := sh₀.locks } = sh₀
  opened : ∃ tx, sh.txs i = some tx ∧ Written sh₀.book j n lg md tx
  free : ∀ l ∈ j.legs, ∀ k, sh.locks l.walletId = some k → k = i

theorem OwnSession.db (h : OwnSession i j sh₀ n lg md sh) : sh.db = sh₀.db := by
  have same := congrArg Shared.db h.rest
  exact same

theorem OwnSession.book (h : OwnSession i j sh₀ n lg md sh) : sh.book = sh₀.book := by
  rw [Shared.book, Shared.book, h.db]

theorem OwnSession.versions (h : OwnSession i j sh₀ n lg md sh) : sh.versions = sh₀.versions := by
  have same := congrArg Shared.versions h.rest
  exact same

/-- A read of the current row. -/
theorem OwnSession.read (h : OwnSession i j sh₀ n lg md sh) (readable : sh₀.Readable) {id : Int}
    {f : Option Wallet → Proc β} {Q : Except Err β → Shared → Prop}
    (hf : Completes i o (f (sh₀.db.wallets.find? id)) sh Q) :
    Completes i o (Tx.walletFindUnique id >>= f) sh Q := by
  obtain ⟨tx, ht, -⟩ := h.opened
  refine finishes_call (x := sh) (a := sh₀.db.wallets.find? id) (fun sh' r => ⟨?_, ?_⟩) hf
  · rintro ⟨⟨a, ha⟩, hr⟩
    simp only [exec, Op.run, TxOp.run, ht, Option.some.injEq, Prod.mk.injEq] at ha
    refine ⟨ha.1.symm, ?_⟩
    rw [← h.db]
    exact hr
  · rintro ⟨rfl, rfl⟩
    refine ⟨?_, by rw [Op.ReadsCurrent, h.db]⟩
    -- the index of the current row, or one that is out of range
    obtain ⟨pick, hp⟩ : ∃ n : Nat, (sh'.versions.filter fun w => w.id = id)[n]? =
        sh₀.db.wallets.find? id := by
      cases hf : sh₀.db.wallets.find? id with
      | none => exact ⟨_, List.getElem?_eq_none le_rfl⟩
      | some w =>
        obtain ⟨hw, hid⟩ := Table.find?_eq_some.mp hf
        exact List.mem_iff_getElem?.mp (List.mem_filter.mpr
          ⟨h.versions ▸ readable w hw, by simpa using hid⟩)
    refine ⟨{ pick := pick }, ?_⟩
    simp only [exec, Op.run, TxOp.run, ht, hp]

/-- The write of the next leg. It finds another version than it was given only
where the session has written the wallet itself. -/
theorem OwnSession.write {l : Leg} {w : Wallet} {f : Unit → Proc β} {Q : Except Err β → Shared → Prop}
    (h : OwnSession i j sh₀ n lg md sh) (hl : j.legs[n]? = some l) (hr : sh₀.book.Reads l w)
    (ok : ∀ sh', OwnSession i j sh₀ (n + 1) lg md sh' → Completes i o (f ()) sh' Q)
    (twice : l.walletId ∈ (j.legs.take n).map Leg.walletId → Q (.error .p2025) sh) :
    Completes i o (Tx.walletUpdate l.walletId w.version l.increment (w.version + 1) >>= f) sh Q := by
  obtain ⟨tx, ht, written⟩ := h.opened
  have run (a : Answer) : (TxOp.walletUpdate l.walletId w.version l.increment (w.version + 1)).run a i o sh =
      TxOp.run.write i l.walletId w.version l.increment (w.version + 1) tx sh := by
    simp only [TxOp.run, ht]
    cases hk : sh.locks l.walletId with
    | none => rfl
    | some k => exact if_pos (h.free l (List.mem_of_getElem? hl) k hk)
  have found : sh.db.wallets.find? l.walletId = some w := by
    rw [h.db]
    exact hr.found
  by_cases again : l.walletId ∈ (j.legs.take n).map Leg.walletId
  · -- the session finds its own row, one version ahead
    rw [← written.ids] at again
    obtain ⟨v, hv, hid⟩ := List.mem_map.mp again
    have nodup : (tx.wallets.map Wallet.id).Nodup := written.ids ▸ written.nodup
    have mine := Table.find?_of_nodup nodup hv
    obtain ⟨l₀, w₀, hw₀, rfl⟩ := written.ahead hv
    rw [hid] at mine hw₀
    have same : w₀ = w := Option.some.inj (hw₀.symm.trans hr.found)
    subst same
    have current : sh.current tx l.walletId = some (l₀.write w₀) := by
      rw [Shared.current, mine]
      rfl
    have stale : ¬ (l₀.write w₀).version = w₀.version := by
      rw [Leg.write_version]
      omega
    refine completes_refused (fun a => ?_) trivial (twice (by rw [← written.ids]; exact again))
    refine (run a).trans ?_
    simp only [TxOp.run.write, current, if_neg stale]
  · rw [← written.ids] at again
    have new : ∀ v ∈ tx.wallets, v.id ≠ l.walletId := fun v hv hid => again (hid ▸ List.mem_map_of_mem hv)
    have none : (tx.wallets.find? fun v => v.id = l.walletId) = none :=
      List.find?_eq_none.mpr fun v hv => by simpa using new v hv
    have current : sh.current tx l.walletId = some w := by
      rw [Shared.current, none, Option.none_or, found]
    refine completes_call (x := (sh.setTx i (tx.write l w)).lock i l.walletId) (a := ()) (fun a => ?_)
      trivial (ok _ ⟨?_, ⟨tx.write l w, Function.update_self .., written.write hl hr new⟩, ?_⟩)
    · refine (run a).trans ?_
      simp only [TxOp.run.write, current, if_true]
      rfl
    · exact h.rest
    · intro l' hl' k hk
      by_cases hid : l'.walletId = l.walletId
      · simp only [Shared.lock, hid, Function.update_self, Option.some.injEq] at hk
        exact hk.symm
      · simp only [Shared.lock, Function.update_of_ne hid] at hk
        exact h.free l' hl' k hk

/-- A statement that changes the session only. -/
theorem OwnSession.setTx {n' : Nat} {lg' md' : Bool} {tx : Tx} (h : OwnSession i j sh₀ n lg md sh)
    (written : Written sh₀.book j n' lg' md' tx) : OwnSession i j sh₀ n' lg' md' (sh.setTx i tx) :=
  ⟨h.rest, ⟨tx, Function.update_self .., written⟩, h.free⟩

theorem OwnSession.mark {f : Unit → Proc β} {Q : Except Err β → Shared → Prop}
    (h : OwnSession i j sh₀ n lg false sh) (recorded : sh₀.Recorded j.txId)
    (ok : ∀ sh', OwnSession i j sh₀ n lg true sh' → Completes i o (f ()) sh' Q) :
    Completes i o (Tx.walletRequestUpdate j.txId .success >>= f) sh Q := by
  obtain ⟨tx, ht, written⟩ := h.opened
  obtain ⟨r, hr⟩ := Option.isSome_iff_exists.mp recorded
  refine completes_call (x := sh.setTx i (tx.mark j)) (a := ()) (fun a => ?_) trivial
    (ok _ (h.setTx written.mark))
  rw [← h.db] at hr
  simp only [Op.run, TxOp.run, ht, hr]
  rfl

theorem OwnSession.log {f : List Transaction → Proc β} {Q : Except Err β → Shared → Prop}
    (h : OwnSession i j sh₀ n false md sh)
    (ok : ∀ sh', OwnSession i j sh₀ n true md sh' →
      Completes i o (f (j.rows.map TransactionData.store)) sh' Q)
    (refused : (j.rows.map TransactionData.store).foldlM Table.insert? sh₀.db.transactions = none →
      Q (.error .p2002) sh) : Completes i o (Tx.transactionCreate j.rows >>= f) sh Q := by
  obtain ⟨tx, ht, written⟩ := h.opened
  have first : tx.transactions = [] := written.transactions
  cases hrows : (j.rows.map TransactionData.store).foldlM Table.insert? sh₀.db.transactions with
  | none =>
    refine completes_refused (fun a => ?_) trivial (refused hrows)
    rw [← h.db] at hrows
    simp only [Op.run, TxOp.run, ht, first, List.nil_append, hrows]
  | some t =>
    refine completes_call (x := sh.setTx i (tx.log j)) (fun a => ?_) trivial
      (ok _ (h.setTx written.log))
    rw [← h.db] at hrows
    simp only [Op.run, TxOp.run, ht, first, List.nil_append, hrows, Shared.setTx, Tx.log]

/-! ## The three bodies -/

section
variable {b b' : Book}

theorem Book.refused_of_leg {l : Leg} (hl : l ∈ j.legs) (h : ∀ w, ¬ b.Reads l w) : b.apply j = none := by
  refine Option.eq_none_iff_forall_ne_some.mpr fun b' applied => ?_
  obtain ⟨w, hr, -⟩ := Book.apply_write applied hl
  exact h w hr

theorem Book.refused_of_rows
    (h : (j.rows.map TransactionData.store).foldlM Table.insert? b.transactions = none) :
    b.apply j = none := by
  refine Option.eq_none_iff_forall_ne_some.mpr fun b' applied => ?_
  obtain ⟨-, ws, -, -, inserted⟩ := Book.apply_eq_some.mp applied
  rw [h] at inserted
  cases inserted

end

/-- How the statements of a session end: they hold the whole job, or the job
does not apply and nothing has changed. -/
def BodyEnds (i : Nat) (j : Job) (sh₀ : Shared) (r : Except Err α) (sh : Shared) : Prop :=
  match r with
  | .ok _ => OwnSession i j sh₀ j.legs.length true true sh
  | .error _ => sh₀.book.apply j = none ∧ { sh with txs := sh₀.txs, locks := sh₀.locks } = sh₀

theorem OwnSession.fails {e : Err} (h : OwnSession i j sh₀ n lg md sh) (refused : sh₀.book.apply j = none) :
    BodyEnds i j sh₀ (.error e : Except Err α) sh := ⟨refused, h.rest⟩

theorem fundingTransaction_completes {d : FundWalletDto}
    (h : OwnSession i (.funding d) sh₀ 0 false false sh) (readable : sh₀.Readable)
    (recorded : sh₀.Recorded d.txId)
    (valid : ∀ w, sh₀.db.wallets.find? d.walletId = some w → w.ValidFor d.userId d.currency) :
    Completes i o (fundingTransaction d) sh (BodyEnds i (.funding d) sh₀) := by
  refine h.read readable ?_
  cases hf : sh₀.db.wallets.find? d.walletId with
  | none =>
    refine h.fails (Book.refused_of_leg (.head _) fun w hr => ?_)
    have found := hr.found.symm.trans hf
    cases found
  | some w =>
    have reads : sh₀.book.Reads ⟨d.walletId, d.userId, d.currency, netAmount d.amount, false⟩ w :=
      ⟨hf, valid w hf, fun hc => by cases hc⟩
    refine h.write (n := 0) rfl reads (fun sh₁ h₁ => ?_) fun twice => by cases twice
    refine h₁.mark recorded fun sh₂ h₂ => ?_
    refine h₂.log (fun sh₃ h₃ => ?_) fun taken => h₂.fails (Book.refused_of_rows taken)
    exact h₃

theorem withdrawalTransaction_completes {d : WithdrawWalletDto}
    (h : OwnSession i (.withdrawal d) sh₀ 0 false false sh) (readable : sh₀.Readable)
    (recorded : sh₀.Recorded d.txId) :
    Completes i o (withdrawalTransaction d) sh (BodyEnds i (.withdrawal d) sh₀) := by
  refine h.read readable (completes_checkWallet (fun w hf valid => ?_) fun invalid => ?_)
  · by_cases short : toNumber w.balance < d.amount
    · rw [if_pos short]
      refine h.fails (Book.refused_of_leg (.head _) fun v hr => ?_)
      have same : v = w := Option.some.inj (hr.found.symm.trans hf)
      have covered := hr.admits.2 rfl
      subst same
      simp only [neg_neg] at covered
      exact absurd short (not_lt.mpr covered)
    · rw [if_neg short]
      have reads : sh₀.book.Reads ⟨d.walletId, d.userId, d.currency, -d.amount, true⟩ w :=
        ⟨hf, valid, fun _ => by simpa using not_lt.mp short⟩
      refine h.write (n := 0) rfl reads (fun sh₁ h₁ => ?_) fun twice => by cases twice
      refine h₁.mark recorded fun sh₂ h₂ => ?_
      refine h₂.log (fun sh₃ h₃ => ?_) fun taken => h₂.fails (Book.refused_of_rows taken)
      exact h₃
  · exact h.fails (Book.refused_of_leg (.head _) fun v hr => invalid v hr.found hr.admits.1)

theorem transferTransaction_completes {d : TransferWalletDto}
    (h : OwnSession i (.transfer d) sh₀ 0 false false sh) (readable : sh₀.Readable)
    (recorded : sh₀.Recorded d.txId) :
    Completes i o (transferTransaction d) sh (BodyEnds i (.transfer d) sh₀) := by
  refine h.read readable (h.read readable ?_)
  refine completes_checkWallet (fun s hs validS => ?_) fun invalid => ?_
  · refine completes_checkWallet (fun r hr validR => ?_) fun invalid => ?_
    · by_cases short : toNumber s.balance < d.amount
      · rw [if_pos short]
        refine h.fails (Book.refused_of_leg (.head _) fun v hv => ?_)
        have same : v = s := Option.some.inj (hv.found.symm.trans hs)
        have covered := hv.admits.2 rfl
        subst same
        simp only [neg_neg] at covered
        exact absurd short (not_lt.mpr covered)
      · rw [if_neg short]
        have debit : sh₀.book.Reads ⟨d.senderWalletId, d.senderId, d.currency, -d.amount, true⟩ s :=
          ⟨hs, validS, fun _ => by simpa using not_lt.mp short⟩
        have credit : sh₀.book.Reads ⟨d.recipientWalletId, d.recipientId, d.currency, d.amount, false⟩ r :=
          ⟨hr, validR, fun hc => by cases hc⟩
        refine h.write (n := 0) rfl debit (fun sh₁ h₁ => ?_) fun twice => by cases twice
        refine h₁.write (n := 1) rfl credit (fun sh₂ h₂ => ?_) fun twice => ?_
        · refine h₂.log (fun sh₃ h₃ => ?_) fun taken => h₂.fails (Book.refused_of_rows taken)
          have marked : Completes i o (do Tx.walletRequestUpdate d.txId .success; pure ()) sh₃
              (BodyEnds i (.transfer d) sh₀) := h₃.mark recorded fun sh₄ h₄ => h₄
          refine (finishes_bind.mp marked).mono fun r x hx => ?_
          cases r with
          | ok _ => exact hx
          | error _ => exact hx
        · -- the wallet of both legs
          refine h₁.fails (Option.eq_none_iff_forall_ne_some.mpr fun b' applied => ?_)
          have nodup := (Book.apply_eq_some.mp applied).1
          have same : d.recipientWalletId = d.senderWalletId := by simpa [Job.legs] using twice
          simp [Job.legs, same] at nodup
    · exact h.fails (Book.refused_of_leg (.tail _ (.head _)) fun v hv => invalid v hv.found hv.admits.1)
  · exact h.fails (Book.refused_of_leg (.head _) fun v hv => invalid v hv.found hv.admits.1)

/-! ## The `$transaction` -/

/-- The job is applied and its request marked; nothing else has happened to what
the handlers look at. -/
structure Applied (j : Job) (sh₀ sh : Shared) : Prop where
  book : sh₀.book.apply j = some sh.book
  requests : sh.db.walletRequests = setStatus sh₀.db.walletRequests (j.txId, .success)

/-- A `$transaction` on free locks and what follows it. -/
theorem transaction_completes {body : Proc α} {f : α → Proc β} {Q : Except Err β → Shared → Prop}
    (free : ∀ l ∈ j.legs, sh₀.locks l.walletId = none)
    (hb : ∀ sh, OwnSession i j sh₀ 0 false false sh → Completes i o body sh (BodyEnds i j sh₀))
    (ok : ∀ a sh, Applied j sh₀ sh → Completes i o (f a) sh Q)
    (refused : ∀ e sh, sh₀.book.apply j = none → sh.db = sh₀.db → Q (.error e) sh) :
    Completes i o (Prisma.transaction body >>= f) sh₀ Q := by
  have opened : OwnSession i j sh₀ 0 false false (sh₀.setTx i {}) :=
    ⟨rfl, ⟨{}, Function.update_self .., .empty⟩, fun l hl k hk => by
      rw [show (sh₀.setTx i {}).locks l.walletId = none from free l hl] at hk
      cases hk⟩
  refine finishes_bind.mpr (completes_call (x := sh₀.setTx i {}) (fun _ => rfl) trivial ?_)
  refine finishes_bind.mpr (finishes_tryCatch.mpr ((hb _ opened).mono fun r sh hr => ?_))
  cases r with
  | error e =>
    obtain ⟨none, rest⟩ := hr
    refine completes_call (x := sh.rollback i) (fun _ => rfl) trivial ?_
    refine refused e _ none ?_
    have same := congrArg Shared.db rest
    exact same
  | ok a =>
    have session : OwnSession i j sh₀ j.legs.length true true sh := hr
    obtain ⟨tx, ht, written⟩ := session.opened
    have rows : tx.transactions = j.rows.map TransactionData.store := written.transactions
    cases ledger : tx.transactions.foldlM Table.insert? sh.db.transactions with
    | none =>
      refine completes_refused (x := sh.rollback i) (e := .p2002) (fun _ => ?_) trivial
        (refused _ _ (Book.refused_of_rows ?_) session.db)
      · simp only [Op.run, TxOp.run, ht, Option.map_some, Shared.commit, ledger]
      · rw [← rows, ← session.book]
        exact ledger
    | some t =>
      obtain ⟨es, he⟩ : ∃ es, sh.commit i o tx =
          ({ sh.install i tx t with journal := sh.journal ++ es }, .ok ()) := by
        simp only [Shared.commit, ledger]
        cases o.job? with
        | none => exact ⟨[], by rw [List.append_nil]; rfl⟩
        | some k => exact ⟨_, rfl⟩
      refine completes_call (x := { sh.install i tx t with journal := sh.journal ++ es }) (a := ())
        (fun _ => ?_) trivial (ok a _ ⟨?_, ?_⟩)
      · simp only [Op.run, TxOp.run, ht, Option.map_some, he]
      · have applied := written.apply (t := t) (by rw [← session.book]; exact ledger)
        rw [applied, ← session.book]
        rfl
      · rw [← session.db]
        show tx.requests.foldl setStatus sh.db.walletRequests = _
        rw [written.requests]
        rfl

/-! ## The handlers -/

def Shared.caching (sh : Shared) (k : CacheKey) (v : k.Value) : Shared :=
  { sh with redis := Function.update sh.redis k (some v) }

/-- The request of a job is cached as settled, over these tables. -/
def Shared.SettledAs (sh : Shared) (txId : String) (db : Db) (status : Status) : Prop :=
  sh.db = db ∧ sh.redis (.walletRequest txId) = some (.bare status)

section
variable {t : String} {db : Db} {status : Status}

/-- What the handlers still do after the commit: they read, announce and change
other entries. -/
abbrev Trails (i : Nat) (o : Origin) (t : String) (db : Db) (status : Status) (c : Proc α) : Prop :=
  Passes (Op.Current i o) (fun sh => sh.SettledAs t db status) c

theorem read_trails (k : CacheKey) : Trails i o t db status (Redis.get k) := by
  refine .perform (fun sh _ => ⟨_, _, ⟨{}, rfl⟩, trivial⟩) fun sh sh' r h hr => ?_
  obtain ⟨⟨a, ha⟩, -⟩ := hr
  cases ha
  exact ⟨⟨_, rfl⟩, h⟩

theorem set_trails {k : CacheKey} (hk : ∀ t, k ≠ .walletRequest t) (v : k.Value) :
    Trails i o t db status (Redis.set k v) := by
  refine .perform (fun sh _ => ⟨_, _, ⟨{}, rfl⟩, trivial⟩) fun sh sh' r h hr => ?_
  obtain ⟨⟨a, ha⟩, -⟩ := hr
  cases ha
  exact ⟨⟨_, rfl⟩, h.1, (Function.update_of_ne (hk t).symm _ _).trans h.2⟩

theorem del_trails {k : CacheKey} (hk : ∀ t, k ≠ .walletRequest t) :
    Trails i o t db status (Redis.del k) := by
  refine .perform (fun sh _ => ⟨_, _, ⟨{}, rfl⟩, trivial⟩) fun sh sh' r h hr => ?_
  obtain ⟨⟨a, ha⟩, -⟩ := hr
  cases ha
  exact ⟨⟨_, rfl⟩, h.1, (Function.update_of_ne (hk t).symm _ _).trans h.2⟩

theorem find_trails (reference : String) :
    Trails i o t db status (Prisma.transactionFindFirst reference) := by
  refine .perform (fun sh _ => ⟨_, _, ⟨{}, rfl⟩, trivial⟩) fun sh sh' r h hr => ?_
  obtain ⟨⟨a, ha⟩, -⟩ := hr
  cases ha
  exact ⟨⟨_, rfl⟩, h⟩

theorem send_trails (q data x) : Trails i o t db status (sendToQueue q data x) := by
  have rabbit (op : RabbitOp) : Trails i o t db status (call (.rabbit op)) := by
    refine .perform (fun sh _ => ⟨_, _, ⟨{}, rfl⟩, trivial⟩) fun sh sh' r h hr => ?_
    obtain ⟨⟨a, ha⟩, -⟩ := hr
    cases ha
    exact ⟨⟨_, rfl⟩, h⟩
  exact .tryCatch (.bind (rabbit _) fun _ => rabbit _)

theorem prependTransaction_trails (u row) : Trails i o t db status (prependTransaction u row) := by
  refine .bind (read_trails _) fun cached => ?_
  cases cached with
  | none => exact .pure _
  | some _ => exact set_trails (fun t => by simp) _

/-- Two calls that are answered are answered together. -/
theorem promiseAll_trails {c : Proc α} {d : Proc β} (hc : Trails i o t db status c)
    (hd : Trails i o t db status d) : Trails i o t db status (promiseAll c d) := by
  intro sh h
  refine finishes_bind.mpr (finishes_tryCatch.mpr (finishes_bind.mpr ((hc sh h).mono ?_)))
  rintro r x ⟨⟨a, rfl⟩, hx⟩
  refine finishes_bind.mpr (finishes_tryCatch.mpr (finishes_bind.mpr ((hd x hx).mono ?_)))
  rintro r y ⟨⟨b, rfl⟩, hy⟩
  exact ⟨⟨(a, b), rfl⟩, hy⟩

end

/-- How an attempt on a job that nobody has logged before ends. -/
def AttemptEnds (j : Job) (sh₀ : Shared) (r : Except Err Unit) (sh : Shared) : Prop :=
  match r with
  | .ok () => ∃ mid, Applied j sh₀ mid ∧ sh.SettledAs j.txId mid.db .success
  | .error _ => sh₀.book.apply j = none ∧ sh.db = sh₀.db

/-- After the commit nothing fails any more. -/
theorem committed_completes {c : Proc Unit} (applied : Applied j sh₀ sh)
    (hc : Trails i o j.txId sh.db .success c) :
    Completes i o (do Redis.set (.walletRequest j.txId) (.bare .success); c) sh (AttemptEnds j sh₀) := by
  have cached : (sh.caching (.walletRequest j.txId) (.bare .success)).SettledAs j.txId sh.db .success :=
    ⟨rfl, Function.update_self ..⟩
  refine completes_call (a := ()) (fun _ => rfl) trivial ((hc _ cached).mono fun r x hx => ?_)
  obtain ⟨⟨a, rfl⟩, settled⟩ := hx
  exact ⟨sh, applied, settled⟩

/-- The request of the job was inserted, and nothing the job depends on changed. -/
structure LoggedNow (j : Job) (sh sh' : Shared) : Prop where
  book : sh'.book = sh.book
  requests : sh.db.walletRequests.insert? j.pending = some sh'.db.walletRequests
  readable : sh'.Readable
  free : ∀ l ∈ j.legs, sh'.locks l.walletId = none

theorem LoggedNow.row (h : LoggedNow j sh₀ sh) : sh.db.walletRequests.find? j.txId = some j.pending := by
  rw [Table.find?_of_insert? h.requests]
  exact if_pos rfl

theorem LoggedNow.recorded (h : LoggedNow j sh₀ sh) : sh.Recorded j.txId := by
  rw [Shared.Recorded, h.row]
  rfl

theorem fund_completes {d : FundWalletDto} (h : LoggedNow (.funding d) sh₀ sh) :
    Completes i o (fund d) sh (AttemptEnds (.funding d) sh) := by
  refine completes_call (x := sh) (a := sh.db.wallets.find? d.walletId) (fun _ => rfl) trivial ?_
  refine completes_checkWallet (fun w hf valid => ?_) fun invalid => ?_
  · refine transaction_completes h.free (fun x hx => fundingTransaction_completes hx h.readable
      h.recorded fun v hv => ?_) (fun row x applied => ?_) fun e x refused same => ⟨refused, same⟩
    · rw [hf] at hv
      cases hv
      exact valid
    · exact committed_completes applied
        (.bind (prependTransaction_trails _ _) fun _ => send_trails _ _ _)
  · exact ⟨Book.refused_of_leg (.head _) fun w hr => invalid w hr.found hr.admits.1, rfl⟩

theorem withdraw_completes {d : WithdrawWalletDto} (h : LoggedNow (.withdrawal d) sh₀ sh) :
    Completes i o (withdraw d) sh (AttemptEnds (.withdrawal d) sh) :=
  transaction_completes h.free (fun _ hx => withdrawalTransaction_completes hx h.readable h.recorded)
    (fun _ _ applied => committed_completes applied (.bind (del_trails (fun t => by simp)) fun _ =>
      .bind (prependTransaction_trails _ _) fun _ => send_trails _ _ _))
    fun _ _ refused same => ⟨refused, same⟩

theorem transfer_completes {d : TransferWalletDto} (h : LoggedNow (.transfer d) sh₀ sh) :
    Completes i o (transfer d) sh (AttemptEnds (.transfer d) sh) :=
  transaction_completes h.free (fun _ hx => transferTransaction_completes hx h.readable h.recorded)
    (fun _ _ applied => committed_completes applied
      (.bind (promiseAll_trails (find_trails _) (find_trails _)) fun _ =>
        .bind (prependTransaction_trails _ _) fun _ => .bind (prependTransaction_trails _ _) fun _ =>
        .bind (promiseAll_trails (del_trails fun t => by simp) (del_trails fun t => by simp)) fun _ =>
        .bind (promiseAll_trails (send_trails _ _ _) (send_trails _ _ _)) fun _ => .pure _))
    fun _ _ refused same => ⟨refused, same⟩

/-- The cache has the request as settled. -/
def Shared.CachedFinal (sh : Shared) (txId : String) : Prop :=
  ∃ v, sh.redis (.walletRequest txId) = some v ∧ v.status.final = true

/-- The txId was used before. -/
def Shared.Taken (sh : Shared) (txId : String) : Prop := sh.CachedFinal txId ∨ sh.Recorded txId

theorem alreadyProcessed_completes (t : String) :
    Completes i o (alreadyProcessed t) sh fun r x => (r = .ok true ∧ sh.CachedFinal t ∧ x = sh) ∨
      r = .ok false ∧ ¬ sh.CachedFinal t ∧ ∃ v, x = { sh with redis := v } := by
  refine completes_call (x := sh) (a := sh.redis (.walletRequest t)) (fun _ => rfl) trivial ?_
  cases cached : sh.redis (.walletRequest t) with
  | none =>
    refine .inr ⟨rfl, fun settled => ?_, _, rfl⟩
    obtain ⟨v, hv, -⟩ := settled
    rw [cached] at hv
    cases hv
  | some v =>
    dsimp only
    split
    · next final =>
      refine .inl ⟨rfl, ⟨v, cached, ?_⟩, rfl⟩
      rcases final with hv | hv
      · rw [hv]; rfl
      · rw [hv]; rfl
    · next pending =>
      refine completes_call (a := ()) (fun _ => rfl) trivial (.inr ⟨rfl, fun settled => ?_, _, rfl⟩)
      obtain ⟨w, hw, final⟩ := settled
      rw [cached] at hw
      cases hw
      cases hs : v.status with
      | pending => rw [hs] at final; cases final
      | success => exact pending (.inl hs)
      | failed => exact pending (.inr hs)

theorem preLog_completes (j : Job) :
    Completes i o (preLog j.payer j.currency j.txId) sh fun r x =>
      (r = .ok false ∧ sh.Recorded j.txId ∧ x = sh) ∨
      r = .ok true ∧ ∃ t, sh.db.walletRequests.insert? j.pending = some t ∧
        x = (sh.setRequests t).note i o (.requestCreated j.txId) := by
  refine finishes_tryCatch.mpr ?_
  cases ins : sh.db.walletRequests.insert? j.pending with
  | none =>
    obtain ⟨row, hrow, hid⟩ := Table.insert?_eq_none.mp ins
    have recorded : sh.Recorded j.txId := Table.find?_isSome.mpr ⟨row, hrow, hid⟩
    refine completes_refused (x := sh) (e := .p2002) (fun _ => ?_) trivial (.inl ⟨rfl, recorded, rfl⟩)
    have refused : sh.db.walletRequests.insert? ⟨j.payer, j.currency, j.txId, .pending⟩ = none := ins
    simp only [Op.run, PrismaOp.run, refused]
  | some t =>
    have inserted : sh.db.walletRequests.insert? ⟨j.payer, j.currency, j.txId, .pending⟩ = some t := ins
    refine completes_call (x := (sh.setRequests t).note i o (.requestCreated j.txId)) (a := j.pending)
      (fun _ => ?_) trivial (.inr ⟨rfl, t, rfl, rfl⟩)
    simp only [Op.run, PrismaOp.run, inserted]
    rfl

/-- How the first two steps of a handler and what they guard end. -/
def GuardEnds (j : Job) (sh : Shared) (r : Except Err Unit) (x : Shared) : Prop :=
  (sh.Taken j.txId ∧ r = .ok () ∧ x.db = sh.db) ∨
    ¬ sh.Taken j.txId ∧ ∃ mid, LoggedNow j sh mid ∧ AttemptEnds j mid r x

theorem guarded_completes {c : Proc Unit} (readable : sh.Readable)
    (free : ∀ l ∈ j.legs, sh.locks l.walletId = none)
    (hc : ∀ mid, LoggedNow j sh mid → Completes i o c mid (AttemptEnds j mid)) :
    Completes i o (do
      if ← alreadyProcessed j.txId then pure ()
      else if ← preLog j.payer j.currency j.txId then c
      else pure ()) sh (GuardEnds j sh) := by
  refine finishes_bind.mpr ((alreadyProcessed_completes j.txId).mono fun r x hx => ?_)
  rcases hx with ⟨rfl, final, rfl⟩ | ⟨rfl, open', v, rfl⟩
  · exact .inl ⟨.inl final, rfl, rfl⟩
  · refine finishes_bind.mpr ((preLog_completes j).mono fun r y hy => ?_)
    rcases hy with ⟨rfl, recorded, rfl⟩ | ⟨rfl, t, ins, rfl⟩
    · exact .inl ⟨.inr recorded, rfl, rfl⟩
    · have absent : sh.db.walletRequests.find? j.txId = none := (Table.insert?_eq_some.mp ins).1
      have fresh : ¬ sh.Taken j.txId := by
        intro taken
        rcases taken with final | recorded
        · exact open' final
        · rw [Shared.Recorded, absent] at recorded
          cases recorded
      have logged : LoggedNow j sh
          ((Shared.setRequests { sh with redis := v } t).note i o (.requestCreated j.txId)) :=
        ⟨rfl, ins, readable, free⟩
      exact (hc _ logged).mono fun r x hx => .inr ⟨fresh, _, logged, hx⟩

/-! ## The whole delivery -/

/-- What becomes of a job that is carried out now. -/
def Shared.verdict (sh : Shared) (j : Job) : Status :=
  if (sh.book.apply j).isSome then .success else .failed

/-- The book, the request row and the cache after a job, over those before it. -/
structure JobDone (j : Job) (sh sh' : Shared) : Prop where
  book : sh'.book = (sh.book.apply j).getD sh.book
  request : sh'.db.walletRequests.find? j.txId = some { j.pending with status := sh.verdict j }
  cached : sh'.redis (.walletRequest j.txId) = some (.bare (sh.verdict j))

theorem JobDone.of_applied {mid x : Shared} (logged : LoggedNow j sh mid)
    (h : AttemptEnds j mid (.ok ()) x) : (sh.book.apply j).isSome = true ∧ JobDone j sh x := by
  obtain ⟨y, applied, same, cached⟩ := h
  have book := applied.book
  rw [logged.book] at book
  have verdict : sh.verdict j = .success := by rw [Shared.verdict, book]; rfl
  refine ⟨by rw [book]; rfl, ?_, ?_, ?_⟩
  · rw [book, Option.getD_some, Shared.book, same]
    rfl
  · rw [same, applied.requests, setStatus_find?, if_pos rfl, logged.row, verdict]
    rfl
  · rw [cached, verdict]

/-- The catch block marks what did not apply. -/
theorem markFailed_completes {mid x : Shared} {e : Err} (logged : LoggedNow j sh mid)
    (h : AttemptEnds j mid (.error e) x) :
    Completes i o (markFailed j.txId) x fun r y => r = .ok () ∧ JobDone j sh y ∧ y.broker = x.broker := by
  obtain ⟨refused, same⟩ := h
  rw [logged.book] at refused
  have verdict : sh.verdict j = .failed := by rw [Shared.verdict, refused]; rfl
  refine completes_call (x := x.setRequests (setStatus x.db.walletRequests (j.txId, .failed))) (a := ())
    (fun _ => rfl) trivial ?_
  refine finishes_perform (current_iff (fun _ => rfl) trivial) ⟨rfl, ⟨?_, ?_, ?_⟩, rfl⟩
  · rw [refused, Option.getD_none, ← logged.book]
    show Book.mk x.db.wallets x.db.transactions = mid.book
    rw [same]
    rfl
  · show (setStatus x.db.walletRequests (j.txId, .failed)).find? j.txId = _
    rw [same, setStatus_find?, if_pos rfl, logged.row, verdict]
    rfl
  · rw [verdict]
    exact Function.update_self ..

/-- How a handler ends: it skips a txId that is taken, or the job is done; the
handler of a withdrawal alone keeps a failure to itself. -/
def HandlerEnds (j : Job) (sh : Shared) (r : Except Err Unit) (x : Shared) : Prop :=
  (sh.Taken j.txId ∧ r = .ok () ∧ x.db = sh.db) ∨
    ¬ sh.Taken j.txId ∧ JobDone j sh x ∧
      ((∃ e, r = .error e) ↔ sh.book.apply j = none ∧ j.queue ≠ .walletWithdrawal)

theorem handler_completes (j : Job) (readable : sh.Readable)
    (free : ∀ l ∈ j.legs, sh.locks l.walletId = none) :
    Completes i o j.handler sh (HandlerEnds j sh) := by
  have applied {mid x : Shared} (fresh : ¬ sh.Taken j.txId) (logged : LoggedNow j sh mid)
      (h : AttemptEnds j mid (.ok ()) x) : HandlerEnds j sh (.ok ()) x := by
    obtain ⟨some, done⟩ := JobDone.of_applied logged h
    refine .inr ⟨fresh, done, fun thrown => ?_, fun refused => ?_⟩
    · obtain ⟨e, he⟩ := thrown
      cases he
    · rw [refused.1] at some
      cases some
  have rethrows {c : Proc Unit} (hj : j.queue ≠ .walletWithdrawal) (hc : Completes i o c sh (GuardEnds j sh)) :
      Completes i o (tryCatch c fun error => do markFailed j.txId; throw error) sh (HandlerEnds j sh) := by
    refine finishes_tryCatch.mpr (hc.mono fun r x hx => ?_)
    rcases hx with ⟨taken, rfl, same⟩ | ⟨fresh, mid, logged, ends⟩
    · exact .inl ⟨taken, rfl, same⟩
    · cases r with
      | ok _ => exact applied fresh logged ends
      | error e =>
        have refused : sh.book.apply j = none := logged.book ▸ ends.1
        refine finishes_bind.mpr ((markFailed_completes logged ends).mono fun r y hy => ?_)
        obtain ⟨rfl, done, -⟩ := hy
        exact .inr ⟨fresh, done, fun _ => ⟨refused, hj⟩, fun _ => ⟨e, rfl⟩⟩
  cases j with
  | funding d =>
    exact rethrows (by simp [Job.queue])
      (guarded_completes readable free fun mid logged => fund_completes logged)
  | transfer d =>
    exact rethrows (by simp [Job.queue])
      (guarded_completes readable free fun mid logged => transfer_completes logged)
  | withdrawal d =>
    refine finishes_tryCatch.mpr ((guarded_completes readable free
      fun mid logged => withdraw_completes logged).mono fun r x hx => ?_)
    rcases hx with ⟨taken, rfl, same⟩ | ⟨fresh, mid, logged, ends⟩
    · exact .inl ⟨taken, rfl, same⟩
    · cases r with
      | ok _ => exact applied fresh logged ends
      | error e =>
        refine (markFailed_completes logged ends).mono fun r y hy => ?_
        obtain ⟨rfl, done, -⟩ := hy
        refine .inr ⟨fresh, done, fun thrown => ?_, fun refused => absurd rfl refused.2⟩
        obtain ⟨e', he⟩ := thrown
        cases he

/-- A job whose txId is taken changes nothing. Any other is done, and one that
failed is published again, a withdrawal apart. -/
structure CarriedOut (m : Message) (j : Job) (sh sh' : Shared) : Prop where
  skipped : sh.Taken j.txId → sh'.book = sh.book ∧ sh'.db.walletRequests = sh.db.walletRequests
  done : ¬ sh.Taken j.txId → JobDone j sh sh'
  retried : ¬ sh.Taken j.txId → sh.book.apply j = none → j.queue ≠ .walletWithdrawal →
    ∃ n, ⟨m.retryQueue, m.data, some (m.attempts + 1), n⟩ ∈ sh'.broker.ready

theorem consume_completes {m : Message} (readable : sh.Readable)
    (free : ∀ l ∈ j.legs, sh.locks l.walletId = none) :
    Completes i o (consume m.queue j.handler m) sh fun r x => r = .ok () ∧ CarriedOut m j sh x := by
  refine finishes_tryCatch.mpr ((handler_completes j readable free).mono fun r x hx => ?_)
  rcases hx with ⟨taken, rfl, same⟩ | ⟨fresh, done, thrown⟩
  · refine ⟨rfl, fun _ => ⟨?_, by rw [same]⟩, fun fresh => absurd taken fresh,
      fun fresh => absurd taken fresh⟩
    rw [Shared.book, same]
    rfl
  · cases r with
    | ok _ =>
      refine ⟨rfl, fun taken => absurd taken fresh, fun _ => done, fun _ refused hj => ?_⟩
      obtain ⟨e, he⟩ := thrown.mpr ⟨refused, hj⟩
      cases he
    | error e =>
      have again (q : Queue) (hq : q = m.retryQueue) : Completes i o (do
          sendToQueue q m.data (some (m.attempts + 1))
          call (.rabbit (.ack m))) x fun r y => r = .ok () ∧ CarriedOut m j sh y := by
        subst hq
        refine finishes_bind.mpr (finishes_tryCatch.mpr ?_)
        refine completes_call (x := x) (a := ()) (fun _ => rfl) trivial ?_
        refine finishes_perform (current_iff (fun _ => rfl) trivial) ?_
        refine finishes_perform (current_iff (fun _ => rfl) trivial) ⟨rfl, fun taken => absurd taken fresh,
          fun _ => ⟨done.book, done.request, done.cached⟩, fun _ _ _ => ⟨x.broker.nextTag, ?_⟩⟩
        exact List.mem_append_right _ (.head _)
      dsimp only
      split
      · next last => exact again _ (if_pos last).symm
      · next left => exact again _ (if_neg left).symm

theorem delivery_completes {m : Message} {sh' : Shared} (hj : m.data = .job j) (readable : sh.Readable)
    (free : ∀ l ∈ j.legs, sh.locks l.walletId = none) (h : (Origin.delivery m).accept sh = some sh') :
    Completes i o (Origin.delivery m).program sh' fun r x => r = .ok .done ∧ CarriedOut m j sh x := by
  obtain ⟨-, taken, rfl⟩ := Origin.accept_delivery h
  obtain ⟨c, hc, program⟩ := Origin.program_delivery taken
  obtain ⟨handler, rfl, -, mine⟩ := deliver_eq_consume hc
  rw [program, (mine j hj).2]
  generalize hsh : ({ sh with broker := _ } : Shared) = sh'
  have ends : Completes i o (consume m.queue j.handler m) sh' fun r x => r = .ok () ∧
      CarriedOut m j sh' x := consume_completes (hsh ▸ readable) (hsh ▸ free)
  subst hsh
  refine finishes_bind.mpr (ends.mono fun r x hx => ?_)
  obtain ⟨rfl, skipped, done, retried⟩ := hx
  refine ⟨rfl, skipped, fun fresh => ?_, retried⟩
  obtain ⟨book, request, cached⟩ := done fresh
  exact ⟨book, request, cached⟩

end

/-- Nothing but the delivery that thread `i` runs moves; its calls are answered,
from the current rows. -/
abbrev Undelayed (m : Message) (i : Nat) : State → Step → Prop :=
  service.Undisturbed (Op.Current i (.delivery m)) i

/-- A delivery that starts at any time of any run, finds the locks of its wallets
free and is then left to itself can be brought to its end from wherever it has
come to, and wherever it ends its job is carried out. -/
theorem deliveries_carry_out_their_jobs {q s s' : State} {m : Message} {j : Job} (hq : Quiet q)
    (h : Reach WalletRun q s) (hj : m.data = .job j)
    (free : ∀ l ∈ j.legs, s.shared.locks l.walletId = none)
    (started : step s (.start (.delivery m)) = some s') :
    (∀ t, Reach (Undelayed m s.threads.length) s' t → ∃ u r,
      Reach (Undelayed m s.threads.length) t u ∧
      u.threads[s.threads.length]? = some ⟨.delivery m, .ret r⟩) ∧
    ∀ t r, Reach (Undelayed m s.threads.length) s' t →
      t.threads[s.threads.length]? = some ⟨.delivery m, .ret r⟩ →
      r = .ok .done ∧ CarriedOut m j s.shared t.shared := by
  obtain ⟨g, -, sound⟩ := h.sound (fun _ _ => id) hq
  cases Machine.step_fires started with
  | @start _ sh ha =>
    have completes := delivery_completes (i := s.threads.length) (o := .delivery m) hj
      sound.history.current free ha
    set first : State := ⟨sh, s.threads ++ [⟨.delivery m, service.program (.delivery m)⟩]⟩
    have here : first.threads[s.threads.length]? = some ⟨.delivery m, service.program (.delivery m)⟩ :=
      List.getElem?_concat_length ..
    have answers (op : Op) (x y : Shared) (r : Except Err op.Res)
        (hr : Op.Current s.threads.length (.delivery m) op x y r) :
        ∃ c, service.exec c s.threads.length (.delivery m) op x = some (y, r) := by
      obtain ⟨⟨a, ha⟩, -⟩ := hr
      exact ⟨.ok a, ha⟩
    refine ⟨fun t reach => ?_, fun t r reach last => Machine.ends_of_finishes completes here reach last⟩
    obtain ⟨q, left, rest⟩ := Machine.finishes_along completes here reach
    obtain ⟨u, r, further, last, -⟩ := Machine.reach_end answers rest left
    exact ⟨u, r, further, last⟩

/-- A deposit of ten into a new wallet is accepted and waits. -/
def depositAccepted : List Step :=
  .start (.http 1 (.createWallet ⟨1, "USD", "w"⟩)) :: calls 0 9 ++
  .start (.http 1 (.fundWallet ⟨1, 1, "USD", 10, "a"⟩)) :: calls 1 4

/-- It is delivered, and its delivery applies it to the book. -/
theorem deliveries_carry_out_their_jobs_deposit : ∃ s s' t : State,
    runSteps depositAccepted State.empty = some s ∧
    step s (.start (.delivery ⟨.walletFunding, .job (.funding ⟨1, 1, "USD", 10, "a"⟩), none, 1⟩)) = some s' ∧
    Reach (Undelayed ⟨.walletFunding, .job (.funding ⟨1, 1, "USD", 10, "a"⟩), none, 1⟩
      s.threads.length) s' t ∧
    s.shared.book.apply (.funding ⟨1, 1, "USD", 10, "a"⟩) = some t.shared.book := by
  have h : ((runSteps depositAccepted State.empty).bind fun s =>
      (step s (.start (.delivery ⟨.walletFunding, .job (.funding ⟨1, 1, "USD", 10, "a"⟩), none, 1⟩))).map
        fun _ => decide (s.shared.locks 1 = none ∧ s.shared.redis (.walletRequest "a") = none ∧
          (s.shared.db.walletRequests.find? "a").isSome = false ∧
          (s.shared.book.apply (.funding ⟨1, 1, "USD", 10, "a"⟩)).isSome)) = some true := by
    decide +kernel
  obtain ⟨s, s', hs, started, hp⟩ := runSteps_step h
  obtain ⟨unlocked, uncached, unrecorded, applies⟩ := of_decide_eq_true hp
  have free : ∀ l ∈ (Job.funding ⟨1, 1, "USD", 10, "a"⟩).legs, s.shared.locks l.walletId = none := by
    intro l hl
    rw [List.mem_singleton.mp hl]
    exact unlocked
  have fresh : ¬ s.shared.Taken "a" := by
    intro taken
    rcases taken with ⟨v, hv, -⟩ | recorded
    · rw [uncached] at hv
      cases hv
    · rw [Shared.Recorded, unrecorded] at recorded
      cases recorded
  obtain ⟨continued, ends⟩ := deliveries_carry_out_their_jobs State.empty_quiet
    (reach_of_runSteps rfl hs) rfl free started
  obtain ⟨t, r, reach, last⟩ := continued s' .refl
  have book := ((ends t r reach last).2.done fresh).book
  obtain ⟨b, hb⟩ := Option.isSome_iff_exists.mp applies
  rw [hb, Option.getD_some] at book
  exact ⟨s, s', t, hs, started, reach, by rw [hb, book]⟩

end Pactic
