import Pactic.Model.Jobs

/-! # What the processors are for

A book is the wallets and the ledger. A job is a list of legs, one for each
wallet it touches, and the ledger rows it leaves. Applied at one instant, a job
checks every wallet, writes every leg and inserts every row, or does nothing.
The processors do the same in many steps, between which anything may happen. -/
namespace Pactic
open FixedPoint Keyed

/-- The share of one wallet in a job. `covered` legs must not overdraw. -/
structure Leg where
  walletId : Int
  userId : Int
  currency : String
  increment : ℚ
  covered : Bool

/-- The row a leg leaves. -/
def Leg.write (l : Leg) (w : Wallet) : Wallet :=
  { w with balance := .ofRat 4 (w.balance.toRat + l.increment), version := w.version + 1 }

@[simp] theorem Leg.write_id (l : Leg) (w : Wallet) : (l.write w).id = w.id := rfl
@[simp] theorem Leg.write_version (l : Leg) (w : Wallet) : (l.write w).version = w.version + 1 := rfl
@[simp] theorem Leg.write_currency (l : Leg) (w : Wallet) : (l.write w).currency = w.currency := rfl

theorem mapM_eq_some {α β : Type} {f : α → Option β} {l : List α} {r : List β} :
    l.mapM f = some r ↔ List.Forall₂ (fun a b => f a = some b) l r := by
  induction l generalizing r with
  | nil => simp [eq_comm]
  | cons a l ih =>
    simp only [List.mapM_cons, Option.bind_eq_bind, Option.bind_eq_some_iff, Option.pure_def,
      Option.some.injEq]
    constructor
    · rintro ⟨b, hb, bs, hbs, rfl⟩
      exact .cons hb (ih.mp hbs)
    · rintro (_ | ⟨hb, hbs⟩)
      exact ⟨_, hb, _, ih.mpr hbs, rfl⟩

variable [Arithmetic]

/-- The checks a processor makes on the wallet of a leg. -/
def Leg.Admits (l : Leg) (w : Wallet) : Prop :=
  w.ValidFor l.userId l.currency ∧ (l.covered = true → -l.increment ≤ toNumber w.balance)

instance (l : Leg) (w : Wallet) : Decidable (l.Admits w) := inferInstanceAs (Decidable (_ ∧ _))

def Job.legs : Job → List Leg
  | funding d => [⟨d.walletId, d.userId, d.currency, netAmount d.amount, false⟩]
  | withdrawal d => [⟨d.walletId, d.userId, d.currency, -d.amount, true⟩]
  | transfer d => [⟨d.senderWalletId, d.senderId, d.currency, -d.amount, true⟩,
      ⟨d.recipientWalletId, d.recipientId, d.currency, d.amount, false⟩]

def Job.rows : Job → List TransactionData
  | funding d => [{
      userId := d.userId, walletId := d.walletId, type := .deposit
      amount := netAmount d.amount, fee := fee d.amount, reference := d.txId }]
  | withdrawal d => [{
      userId := d.userId, walletId := d.walletId, type := .withdrawal
      amount := d.amount, reference := d.txId }]
  | transfer d => [
      { userId := d.senderId, walletId := d.senderWalletId, type := .transfer
        amount := d.amount, reference := d.txId ++ "-sender"
        metadata := some (.to d.recipientWalletId) },
      { userId := d.recipientId, walletId := d.recipientWalletId, type := .deposit
        amount := d.amount, reference := d.txId ++ "-recipient"
        metadata := some (.from d.senderWalletId) }]

structure Book where
  wallets : Table Wallet.id
  transactions : Table Transaction.reference

namespace Book

/-- The wallet of a leg, if it passes the checks. -/
def read (b : Book) (l : Leg) : Option Wallet :=
  (b.wallets.find? l.walletId).filter fun w => l.Admits w

/-- A job at one instant. Two legs on one wallet never pass: the second write
finds the version the first one left. -/
def apply (b : Book) (j : Job) : Option Book :=
  if (j.legs.map Leg.walletId).Nodup then do
    let ws ← j.legs.mapM b.read
    let transactions ← (j.rows.map TransactionData.store).foldlM Table.insert? b.transactions
    some ⟨(List.zipWith Leg.write j.legs ws).foldl Table.put b.wallets, transactions⟩
  else none

/-- One event of the journal on the book. -/
def replay (b : Book) : Event → Option Book
  | .requestCreated _ | .signupChecked _ | .signedUp _ => some b
  | .walletCreated w => (b.wallets.insert? w).map fun ws => { b with wallets := ws }
  | .committed j => b.apply j

end Book

/-- The wallet a leg finds and admits. -/
structure Book.Reads (b : Book) (l : Leg) (w : Wallet) : Prop where
  found : b.wallets.find? l.walletId = some w
  admits : l.Admits w

theorem Book.read_eq_some {b : Book} {l w} : b.read l = some w ↔ b.Reads l w := by
  simp only [read, Option.filter_eq_some_iff, decide_eq_true_eq]
  exact ⟨fun h => ⟨h.1, h.2⟩, fun h => ⟨h.1, h.2⟩⟩

theorem Book.Reads.id {b : Book} {l w} (h : b.Reads l w) : w.id = l.walletId :=
  (Table.find?_eq_some.mp h.found).2

/-- Every leg has read a wallet and writes it. -/
theorem Book.reads_of_mem {b : Book} {ls : List Leg} {ws : List Wallet}
    (h : List.Forall₂ b.Reads ls ws) {l : Leg} (hl : l ∈ ls) :
    ∃ w, b.Reads l w ∧ l.write w ∈ List.zipWith Leg.write ls ws := by
  induction h with
  | nil => cases hl
  | cons hr _ ih =>
    rcases List.mem_cons.mp hl with rfl | hl
    · exact ⟨_, hr, .head _⟩
    · obtain ⟨w, hw, hmem⟩ := ih hl
      exact ⟨w, hw, .tail _ hmem⟩

/-- What a job that applies has found and leaves. -/
theorem Book.apply_eq_some {b b' : Book} {j : Job} :
    b.apply j = some b' ↔ (j.legs.map Leg.walletId).Nodup ∧
      ∃ ws, List.Forall₂ b.Reads j.legs ws ∧
        b'.wallets = (List.zipWith Leg.write j.legs ws).foldl Table.put b.wallets ∧
        (j.rows.map TransactionData.store).foldlM Table.insert? b.transactions =
          some b'.transactions := by
  unfold apply
  split
  · next hn =>
    simp only [Option.bind_eq_bind, Option.bind_eq_some_iff, mapM_eq_some, read_eq_some,
      Option.some.injEq, hn, true_and]
    constructor
    · rintro ⟨ws, hw, ts, ht, rfl⟩
      exact ⟨ws, hw, rfl, ht⟩
    · rintro ⟨ws, hw, he, ht⟩
      exact ⟨ws, hw, _, ht, by cases b'; simp_all⟩
  · next hn => simp [hn]

section
variable {b b' : Book} {j : Job} {w w' : Wallet}

/-- The wallet a leg has read, among those of all legs. -/
theorem Book.mem_writes {ls : List Leg} {ws : List Wallet} (h : List.Forall₂ b.Reads ls ws)
    (hw : w ∈ List.zipWith Leg.write ls ws) : ∃ l ∈ ls, ∃ w₀, b.Reads l w₀ ∧ w = l.write w₀ := by
  induction h with
  | nil => cases hw
  | cons hr _ ih =>
    rcases List.mem_cons.mp hw with rfl | hw
    · exact ⟨_, .head _, _, hr, rfl⟩
    · obtain ⟨l, hl, rest⟩ := ih hw
      exact ⟨l, .tail _ hl, rest⟩

theorem Book.ids_of_reads {ls : List Leg} {ws : List Wallet} (h : List.Forall₂ b.Reads ls ws) :
    (List.zipWith Leg.write ls ws).map Wallet.id = ls.map Leg.walletId := by
  induction h with
  | nil => rfl
  | cons hr _ ih => simp only [List.zipWith_cons_cons, List.map_cons, ih, Leg.write_id, hr.id]

/-- The rows after a job: those written, else the old ones. -/
theorem Book.apply_find? (h : b.apply j = some b') : ∃ ws, List.Forall₂ b.Reads j.legs ws ∧
    ((List.zipWith Leg.write j.legs ws).map Wallet.id).Nodup ∧ ∀ id, b'.wallets.find? id =
      ((List.zipWith Leg.write j.legs ws).find? fun w => w.id = id).or (b.wallets.find? id) := by
  obtain ⟨nodup, ws, reads, hwallets, -⟩ := apply_eq_some.mp h
  rw [← ids_of_reads reads] at nodup
  refine ⟨ws, reads, nodup, fun id => ?_⟩
  rw [hwallets, Table.find?_foldl_put nodup fun v hv => ?_]
  obtain ⟨l, -, w₀, hr, rfl⟩ := mem_writes reads hv
  rw [Leg.write_id, hr.id, hr.found]; rfl

/-- Every leg of a job that applies has read its wallet and leaves its row. -/
theorem Book.apply_write {l : Leg} (h : b.apply j = some b') (hl : l ∈ j.legs) :
    ∃ w, b.Reads l w ∧ b'.wallets.find? l.walletId = some (l.write w) := by
  obtain ⟨ws, reads, nodup, find⟩ := apply_find? h
  obtain ⟨w, hr, hmem⟩ := reads_of_mem reads hl
  refine ⟨w, hr, ?_⟩
  rw [find, ← hr.id, ← Leg.write_id l w, Table.find?_of_nodup nodup hmem]; rfl

/-- Where the rows after a job come from. -/
theorem Book.apply_mem (h : b.apply j = some b') (hw' : w' ∈ b'.wallets.rows) :
    (w' ∈ b.wallets.rows ∧ ∀ l ∈ j.legs, l.walletId ≠ w'.id) ∨
    ∃ l ∈ j.legs, ∃ w, b.Reads l w ∧ w' = l.write w := by
  obtain ⟨ws, reads, -, find⟩ := apply_find? h
  have hf := Table.find?_eq_some.mpr ⟨hw', rfl⟩
  rw [find, Option.or_eq_some_iff] at hf
  rcases hf with hf | ⟨hnone, hf⟩
  · exact .inr (mem_writes reads (List.mem_of_find?_eq_some hf))
  · refine .inl ⟨(Table.find?_eq_some.mp hf).1, fun l hl he => ?_⟩
    obtain ⟨w, hr, hmem⟩ := reads_of_mem reads hl
    have := List.find?_eq_none.mp hnone _ hmem
    rw [Leg.write_id, hr.id, he] at this
    simp at this

/-- What a job leaves of a wallet: the row itself, or what one leg writes. -/
theorem Book.apply_wallet (h : b.apply j = some b') (hw : w ∈ b.wallets.rows)
    (hw' : w' ∈ b'.wallets.rows) (hid : w'.id = w.id) :
    w' = w ∨ ∃ l ∈ j.legs, b.Reads l w ∧ w' = l.write w := by
  rcases apply_mem h hw' with ⟨hmem, -⟩ | ⟨l, hl, w₀, hr, rfl⟩
  · exact .inl (Table.eq_of_key _ hmem hw hid)
  · have := Table.eq_of_key _ (Table.find?_eq_some.mp hr.found).1 hw hid
    subst this
    exact .inr ⟨l, hl, hr, rfl⟩

/-- The ledger only grows, by the rows of the committed jobs. -/
theorem Book.replay_ledger {es : List Event} (h : es.foldlM replay b = some b') :
    (∀ row ∈ b.transactions.rows, row ∈ b'.transactions.rows) ∧
    ∀ j, .committed j ∈ es → ∀ d ∈ j.rows, d.store ∈ b'.transactions.rows := by
  induction es generalizing b with
  | nil => cases h; exact ⟨fun _ => id, fun j hj => by cases hj⟩
  | cons e es ih =>
    simp only [List.foldlM_cons, Option.bind_eq_bind, Option.bind_eq_some_iff] at h
    obtain ⟨mid, he, hrest⟩ := h
    obtain ⟨kept, logged⟩ := ih hrest
    have first : (∀ row ∈ b.transactions.rows, row ∈ mid.transactions.rows) ∧
        ∀ j, e = .committed j → ∀ d ∈ j.rows, d.store ∈ mid.transactions.rows := by
      cases e with
      | committed j =>
        obtain ⟨-, -, -, -, hledger⟩ := apply_eq_some.mp he
        have hrows := Table.rows_of_foldlM_insert? hledger
        refine ⟨fun row hrow => hrows ▸ List.mem_append_left _ hrow, fun j' hj d hd => ?_⟩
        cases hj
        exact hrows ▸ List.mem_append_right _ (List.mem_map_of_mem hd)
      | walletCreated v =>
        simp only [replay, Option.map_eq_some_iff] at he
        obtain ⟨t, -, rfl⟩ := he
        exact ⟨fun _ => id, fun j hj => by cases hj⟩
      | _ => cases he; exact ⟨fun _ => id, fun j hj => by cases hj⟩
    refine ⟨fun row hrow => kept row (first.1 row hrow), fun j hj d hd => ?_⟩
    rcases List.mem_cons.mp hj with hj | hj
    · exact kept _ (first.2 j hj.symm d hd)
    · exact logged j hj d hd

/-- An event other than a commit leaves the wallets there are as they are. -/
theorem Book.replay_keeps {e : Event} (h : b.replay e = some b')
    (he : ∀ j, e ≠ .committed j) : ∀ w ∈ b.wallets.rows, w ∈ b'.wallets.rows := by
  intro w hw
  cases e with
  | committed j => exact absurd rfl (he j)
  | walletCreated v =>
    simp only [replay, Option.map_eq_some_iff] at h
    obtain ⟨t, ht, rfl⟩ := h
    rw [show t.rows = _ from (Table.insert?_eq_some.mp ht).2]
    exact List.mem_append_left _ hw
  | _ => cases h; exact hw

end

end Pactic
