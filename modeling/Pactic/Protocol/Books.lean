import Pactic.Protocol.Moves

/-! # Sessions read what they commit

Every version of a wallet that was ever committed names the same account as the
current row, and no two of them share a version number. So a row that was seen
once and still has the version of the current row is the current row, and the
lock keeps it so until the session ends. `Written` says what a session holds;
it makes a commit one application of the job to the book. -/
namespace Pactic
open FixedPoint Keyed Resumption

variable [Arithmetic]

structure Wallet.SameAccount (v w : Wallet) : Prop where
  userId : v.userId = w.userId
  currency : v.currency = w.currency
  deletedAt : v.deletedAt = w.deletedAt

omit [Arithmetic] in
theorem Wallet.SameAccount.validFor {v w : Wallet} (h : v.SameAccount w) {u c}
    (hv : v.ValidFor u c) : w.ValidFor u c :=
  ⟨h.userId ▸ hv.1, h.currency ▸ hv.2.1, h.deletedAt ▸ hv.2.2⟩

/-- The versions ever committed, seen from the current rows. -/
structure Shared.History (sh : Shared) : Prop where
  current : ∀ w ∈ sh.db.wallets.rows, w ∈ sh.versions
  version : ∀ v ∈ sh.versions, ∃ w, sh.db.wallets.find? v.id = some w ∧ v.SameAccount w ∧
    v.version ≤ w.version ∧ (v.version = w.version → v = w)

def Shared.book (sh : Shared) : Book := ⟨sh.db.wallets, sh.db.transactions⟩

/-- What the session of a job holds after `n` legs. -/
structure Written (b : Book) (j : Job) (n : Nat) (logged marked : Bool) (tx : Tx) : Prop where
  nodup : ((j.legs.take n).map Leg.walletId).Nodup
  wallets : ∃ ws, List.Forall₂ b.Reads (j.legs.take n) ws ∧
    tx.wallets = List.zipWith Leg.write (j.legs.take n) ws
  transactions : tx.transactions = if logged then j.rows.map TransactionData.store else []
  requests : tx.requests = if marked then [(j.txId, .success)] else []

structure Sound (sh : Shared) (g : Threads) : Prop where
  history : sh.History
  seen : ∀ {i o p x}, g i = some (o, p) → x ∈ p.seen → x.2 ∈ sh.versions ∧ x.2.id = x.1
  locked : ∀ {i tx w}, sh.txs i = some tx → w ∈ tx.wallets → sh.locks w.id = some i
  session : ∀ {i o p j n lg md tx}, g i = some (o, p) → o.job? = some j →
    p.stage = .session n lg md → sh.txs i = some tx → Written sh.book j n lg md tx

section
variable {b b' : Book} {j : Job} {n : Nat} {lg md : Bool} {tx : Tx} {l : Leg} {w : Wallet}

theorem reads_frame {ls : List Leg} {ws : List Wallet} (h : List.Forall₂ b.Reads ls ws)
    (hf : ∀ l ∈ ls, b'.wallets.find? l.walletId = b.wallets.find? l.walletId) :
    List.Forall₂ b'.Reads ls ws := by
  induction h with
  | nil => exact .nil
  | cons hr _ ih =>
    exact .cons ⟨(hf _ (.head _)).trans hr.found, hr.admits⟩ (ih fun l hl => hf l (.tail _ hl))

theorem Written.ids (h : Written b j n lg md tx) :
    tx.wallets.map Wallet.id = (j.legs.take n).map Leg.walletId := by
  obtain ⟨ws, hr, hw⟩ := h.wallets
  rw [hw, Book.ids_of_reads hr]

theorem Written.mem_ids (h : Written b j n lg md tx) :
    l ∈ j.legs.take n → ∃ w ∈ tx.wallets, w.id = l.walletId := by
  intro hl
  have : l.walletId ∈ tx.wallets.map Wallet.id := h.ids ▸ List.mem_map_of_mem hl
  simpa using this

/-- A row in a session is one version ahead of the current row. -/
theorem Written.ahead (h : Written b j n lg md tx) (hw : w ∈ tx.wallets) :
    ∃ l w₀, b.wallets.find? w.id = some w₀ ∧ w = Leg.write l w₀ := by
  obtain ⟨ws, hr, he⟩ := h.wallets
  obtain ⟨l, -, w₀, hr, rfl⟩ := Book.mem_writes hr (he ▸ hw)
  exact ⟨l, w₀, by rw [Leg.write_id, hr.id]; exact hr.found, rfl⟩

/-- A session survives what others do to other wallets. -/
theorem Written.frame (h : Written b j n lg md tx)
    (hf : ∀ w ∈ tx.wallets, b'.wallets.find? w.id = b.wallets.find? w.id) :
    Written b' j n lg md tx := by
  obtain ⟨ws, hr, hw⟩ := h.wallets
  refine ⟨h.nodup, ⟨ws, reads_frame hr fun l hl => ?_, hw⟩, h.transactions, h.requests⟩
  obtain ⟨w, hmem, hid⟩ := h.mem_ids hl
  exact hid ▸ hf w hmem

/-- A session that has written nothing. -/
theorem Written.empty : Written b j 0 false false {} :=
  ⟨List.nodup_nil, ⟨[], .nil, rfl⟩, rfl, rfl⟩

/-- One more leg, on a wallet the session has not written yet. -/
theorem Written.write (h : Written b j n lg md tx) (hl : j.legs[n]? = some l) (hr : b.Reads l w)
    (new : ∀ v ∈ tx.wallets, v.id ≠ l.walletId) : Written b j (n + 1) lg md (tx.write l w) := by
  obtain ⟨ws, hws, hw⟩ := h.wallets
  have take : j.legs.take (n + 1) = j.legs.take n ++ [l] := by rw [List.take_add_one, hl]; rfl
  refine ⟨?_, ⟨ws ++ [w], ?_, ?_⟩, h.transactions, h.requests⟩
  · rw [take, List.map_append, List.nodup_append]
    refine ⟨h.nodup, List.nodup_singleton _, ?_⟩
    rintro a ha b hb rfl
    rw [← h.ids] at ha
    obtain ⟨v, hv, hid⟩ := List.mem_map.mp ha
    exact new v hv (hid.trans (List.mem_singleton.mp hb))
  · rw [take]; exact List.rel_append hws (.cons hr .nil)
  · have keep : (tx.wallets.filter fun v => v.id ≠ l.walletId) = tx.wallets :=
      List.filter_eq_self.mpr fun v hv => by simpa using new v hv
    have hlen : (j.legs.take n).length = ws.length := hws.length_eq
    rw [take, List.zipWith_append hlen, ← hw]
    simp only [Tx.write, keep]; rfl

theorem Written.mark (h : Written b j n lg false tx) : Written b j n lg true (tx.mark j) := by
  refine ⟨h.nodup, h.wallets, h.transactions, ?_⟩
  simp [Tx.mark, h.requests]

theorem Written.log (h : Written b j n false md tx) : Written b j n true md (tx.log j) := by
  refine ⟨h.nodup, h.wallets, ?_, h.requests⟩
  simp [Tx.log, h.transactions]

/-- A session that holds everything applies the job when it commits. -/
theorem Written.apply {t} (h : Written b j j.legs.length true true tx)
    (ledger : tx.transactions.foldlM Table.insert? b.transactions = some t) :
    b.apply j = some ⟨tx.wallets.foldl Table.put b.wallets, t⟩ := by
  obtain ⟨ws, hr, hw⟩ := h.wallets
  have hn := h.nodup
  rw [List.take_length] at hn hr hw
  rw [h.transactions] at ledger
  exact Book.apply_eq_some.mpr ⟨hn, ws, hr, by rw [hw], ledger⟩

end

section
variable {sh sh' : Shared} {g : Threads} {i : Nat} {o : Origin} {p p' : Local}

/-- The heart of optimistic locking: an update that finds its version finds a
wallet the session has not written, and all that was checked on the rows seen
holds of the row it writes. -/
theorem Sound.reads {j n l lg md tx w} (h : Sound sh g) (hg : g i = some (o, p))
    (written : Written sh.book j n lg md tx) (known : l.Seen p.seen w.version)
    (current : sh.current tx l.walletId = some w) :
    sh.book.Reads l w ∧ ∀ v ∈ tx.wallets, v.id ≠ l.walletId := by
  obtain ⟨⟨v₁, hv₁, valid⟩, v₂, hv₂, hver, covers⟩ := known
  obtain ⟨mem₁, id₁⟩ := h.seen hg hv₁
  obtain ⟨mem₂, id₂⟩ := h.seen hg hv₂
  obtain ⟨w₁, found₁, same, -, -⟩ := h.history.version v₁ mem₁
  obtain ⟨w₂, found₂, -, hle, heq⟩ := h.history.version v₂ mem₂
  simp only at id₁ id₂
  rw [id₁] at found₁
  rw [id₂, found₁] at found₂
  cases found₂
  unfold Shared.current at current
  cases hf : tx.wallets.find? fun v => v.id = l.walletId with
  | some v =>
    -- a second write finds the version the first one has left
    rw [hf] at current
    cases current
    have hid : w.id = l.walletId := by simpa using List.find?_some hf
    obtain ⟨l₀, w₀, hw₀, rfl⟩ := written.ahead (List.mem_of_find?_eq_some hf)
    rw [hid] at hw₀
    rw [show sh.book.wallets.find? l.walletId = some w₁ from found₁] at hw₀
    cases hw₀
    rw [Leg.write_version] at hver
    omega
  | none =>
    rw [hf, Option.none_or, found₁] at current
    cases current
    cases heq hver
    refine ⟨⟨found₁, same.validFor valid, covers⟩, fun v hv => ?_⟩
    simpa using List.find?_eq_none.mp hf v hv

omit [Arithmetic] in
theorem Wallet.SameAccount.rfl {w : Wallet} : w.SameAccount w := ⟨.refl _, .refl _, .refl _⟩

omit [Arithmetic] in
/-- A new wallet starts a history of its own. -/
theorem Shared.History.addWallet {w : Wallet} {t} (h : sh.History)
    (ins : sh.db.wallets.insert? w = some t) : (sh.addWallet w t).History := by
  obtain ⟨hnone, hrows⟩ := Table.insert?_eq_some.mp ins
  constructor
  · intro v hv
    rw [show (sh.addWallet w t).db.wallets.rows = sh.db.wallets.rows ++ [w] from hrows] at hv
    rcases List.mem_append.mp hv with hv | hv
    · exact List.mem_append_left _ (h.current v hv)
    · exact List.mem_append_right _ hv
  · intro v hv
    rcases List.mem_append.mp hv with hv | hv
    · obtain ⟨u, hu, rest⟩ := h.version v hv
      refine ⟨u, ?_, rest⟩
      have hne : w.id ≠ v.id := fun he => by rw [he, hu] at hnone; cases hnone
      simp only [Shared.addWallet, Table.find?_of_insert? ins, hne, if_false, hu]
    · cases List.mem_singleton.mp hv
      exact ⟨w, by simp [Shared.addWallet, Table.find?_of_insert? ins], .rfl, le_rfl, fun _ => .refl _⟩

/-- The current row of a wallet after a session has been put in place. -/
theorem Written.find? {j n lg md tx} {b : Book} (h : Written b j n lg md tx) (id : Int) :
    (tx.wallets.foldl Table.put b.wallets).find? id =
      (tx.wallets.find? fun w => w.id = id).or (b.wallets.find? id) := by
  refine Table.find?_foldl_put (h.ids ▸ h.nodup) (fun w hw => ?_) id
  obtain ⟨l, w₀, hf, -⟩ := h.ahead hw
  rw [hf]; rfl

/-- A commit appends one version to the history of every wallet it writes. -/
theorem Shared.History.install {j n lg md tx t} (h : sh.History)
    (written : Written sh.book j n lg md tx) : (sh.install i tx t).History := by
  have nodup : (tx.wallets.map Wallet.id).Nodup := written.ids ▸ written.nodup
  have find (id) : (sh.install i tx t).db.wallets.find? id =
      (tx.wallets.find? fun w => w.id = id).or (sh.db.wallets.find? id) := written.find? id
  constructor
  · intro v hv
    have hf := Table.find?_eq_some.mpr ⟨hv, rfl⟩
    rw [find, Option.or_eq_some_iff] at hf
    rcases hf with hf | ⟨-, hf⟩
    · exact List.mem_append_right _ (List.mem_of_find?_eq_some hf)
    · exact List.mem_append_left _ (h.current v (Table.find?_eq_some.mp hf).1)
  · intro v hv
    rcases List.mem_append.mp hv with hv | hv
    · obtain ⟨u, hu, same, hle, heq⟩ := h.version v hv
      cases hf : tx.wallets.find? fun w => w.id = v.id with
      | none => exact ⟨u, by rw [find, hf]; exact hu, same, hle, heq⟩
      | some w =>
        have hid : w.id = v.id := by simpa using List.find?_some hf
        obtain ⟨l, w₀, hw₀, rfl⟩ := written.ahead (List.mem_of_find?_eq_some hf)
        rw [hid, show sh.book.wallets.find? v.id = some u from hu] at hw₀
        cases hw₀
        refine ⟨l.write u, by rw [find, hf]; rfl, ⟨same.userId, same.currency, same.deletedAt⟩, ?_, ?_⟩
        · rw [Leg.write_version]; omega
        · rw [Leg.write_version]; omega
    · have hf := Table.find?_of_nodup nodup hv
      exact ⟨v, by rw [find, hf]; rfl, .rfl, le_rfl, fun _ => .refl _⟩

/-- What is left to show when thread `i` moves: the history, its own session,
and that the wallets written by other sessions are left alone. -/
theorem Sound.update (h : Sound sh g) (history : sh'.History)
    (more : ∀ v ∈ sh.versions, v ∈ sh'.versions)
    (seen : ∀ x ∈ p'.seen, x.2 ∈ sh'.versions ∧ x.2.id = x.1)
    (others : ∀ k tx, k ≠ i → sh'.txs k = some tx → sh.txs k = some tx ∧ ∀ w ∈ tx.wallets,
      sh'.locks w.id = sh.locks w.id ∧ sh'.db.wallets.find? w.id = sh.db.wallets.find? w.id)
    (locked : ∀ tx w, sh'.txs i = some tx → w ∈ tx.wallets → sh'.locks w.id = some i)
    (session : ∀ j n lg md tx, o.job? = some j → p'.stage = .session n lg md →
      sh'.txs i = some tx → Written sh'.book j n lg md tx) :
    Sound sh' (Function.update g i (some (o, p'))) where
  history := history
  seen {k o' q x} hg hx := by
    by_cases hk : k = i
    · subst hk
      rw [Function.update_self] at hg; cases hg
      exact seen x hx
    · rw [Function.update_of_ne hk] at hg
      exact ⟨more _ (h.seen hg hx).1, (h.seen hg hx).2⟩
  locked {k tx w} ht hw := by
    by_cases hk : k = i
    · subst hk; exact locked tx w ht hw
    · obtain ⟨ht, same⟩ := others k tx hk ht
      rw [(same w hw).1]; exact h.locked ht hw
  session {k o' q j n lg md tx} hg hj hs ht := by
    by_cases hk : k = i
    · subst hk
      rw [Function.update_self] at hg; cases hg
      exact session j n lg md tx hj hs ht
    · rw [Function.update_of_ne hk] at hg
      obtain ⟨ht, same⟩ := others k tx hk ht
      exact (h.session hg hj hs ht).frame fun w hw => (same w hw).2

theorem Sound.same (hs : sh.SameBooks sh') (h : Sound sh g) : Sound sh' g where
  history := ⟨by rw [hs.wallets, hs.versions]; exact h.history.current,
    by rw [hs.wallets, hs.versions]; exact h.history.version⟩
  seen hg hx := by rw [hs.versions]; exact h.seen hg hx
  locked ht hw := by rw [hs.txs] at ht; rw [hs.locks]; exact h.locked ht hw
  session hg hj hst ht := by
    rw [hs.txs] at ht
    rw [show sh'.book = sh.book by simp only [Shared.book, hs.wallets, hs.transactions]]
    exact h.session hg hj hst ht

omit [Arithmetic] in
theorem Stage.ne_session {s : Stage} (h : s.live = false) (n lg md) : s ≠ .session n lg md := by
  rintro rfl; cases h

/-- A move that leaves the shared state alone. -/
theorem Sound.keep (h : Sound sh g) (hg : g i = some (o, p))
    (seen : ∀ x ∈ p'.seen, x.2 ∈ sh.versions ∧ x.2.id = x.1)
    (stage : p'.stage = p.stage ∨ ∀ n lg md, p'.stage ≠ .session n lg md) :
    Sound sh (Function.update g i (some (o, p'))) := by
  refine h.update h.history (fun _ => id) seen (fun k tx _ ht => ⟨ht, fun _ _ => ⟨rfl, rfl⟩⟩)
    (fun tx w => h.locked) fun j n lg md tx hj hs ht => ?_
  rcases stage with hp | hp
  · exact h.session hg hj (hp ▸ hs) ht
  · exact absurd hs (hp n lg md)

/-- A move that changes nothing but the session of its thread. -/
theorem Sound.setTx {tx' : Tx} (h : Sound sh g) (hg : g i = some (o, p)) (hseen : p'.seen = p.seen)
    (locked : ∀ w ∈ tx'.wallets, sh.locks w.id = some i)
    (session : ∀ j n lg md, o.job? = some j → p'.stage = .session n lg md →
      Written sh.book j n lg md tx') :
    Sound (sh.setTx i tx') (Function.update g i (some (o, p'))) := by
  refine h.update ⟨h.history.current, h.history.version⟩ (fun _ => id)
    (fun x hx => h.seen hg (hseen ▸ hx)) (fun k tx hk ht => ?_) (fun tx w ht hw => ?_)
    fun j n lg md tx hj hs ht => ?_
  · simp only [Shared.setTx, Function.update_of_ne hk] at ht
    exact ⟨ht, fun _ _ => ⟨rfl, rfl⟩⟩
  · simp only [Shared.setTx, Function.update_self, Option.some.injEq] at ht
    subst ht; exact locked w hw
  · simp only [Shared.setTx, Function.update_self, Option.some.injEq] at ht
    subst ht; exact session j n lg md hj hs

theorem Sound.note {e} (h : Sound sh g) : Sound (sh.note i o e) g :=
  ⟨⟨h.history.current, h.history.version⟩, h.seen, h.locked, h.session⟩

/-- Taking a lock that is free or already held. -/
theorem Sound.lock {id : Int} (h : Sound sh g) (free : ∀ k, sh.locks id = some k → k = i) :
    Sound (sh.lock i id) g := by
  refine ⟨⟨h.history.current, h.history.version⟩, h.seen, fun {k tx w} ht hw => ?_, h.session⟩
  have hk := h.locked ht hw
  simp only [Shared.lock]
  by_cases hid : w.id = id
  · rw [hid] at hk ⊢
    rw [Function.update_self, free k hk]
  · rw [Function.update_of_ne hid]; exact hk

/-- The end of a session without a trace. -/
theorem Sound.rollback (h : Sound sh g) : Sound (sh.rollback i) g := by
  have txs {k tx} (ht : (sh.rollback i).txs k = some tx) : k ≠ i ∧ sh.txs k = some tx := by
    by_cases hk : k = i
    · subst hk; simp [Shared.rollback] at ht
    · simp only [Shared.rollback, Function.update_of_ne hk] at ht
      exact ⟨hk, ht⟩
  refine ⟨⟨h.history.current, h.history.version⟩, h.seen, fun {k tx w} ht hw => ?_,
    fun hg hj hs ht => h.session hg hj hs (txs ht).2⟩
  obtain ⟨hk, ht⟩ := txs ht
  simp only [Shared.rollback, h.locked ht hw, Option.some.injEq, hk, if_false]

/-- The wallets of two sessions are different ones: each is locked. -/
theorem Sound.disjoint {k tx tx' w w'} (h : Sound sh g) (hk : k ≠ i) (ht : sh.txs k = some tx)
    (ht' : sh.txs i = some tx') (hw : w ∈ tx.wallets) (hw' : w' ∈ tx'.wallets) : w'.id ≠ w.id := by
  intro he
  have h₁ := h.locked ht hw
  have h₂ := h.locked ht' hw'
  rw [he, h₁] at h₂
  exact hk (Option.some.inj h₂)

theorem Sound.install {j tx t} (h : Sound sh g) (hg : g i = some (o, p)) (opened : sh.txs i = some tx)
    (written : Written sh.book j j.legs.length true true tx) (stage : p'.stage.live = false)
    (hseen : p'.seen = p.seen) : Sound (sh.install i tx t) (Function.update g i (some (o, p'))) := by
  have txs : (sh.install i tx t).txs = Function.update sh.txs i none := rfl
  refine h.update (h.history.install written) (fun v => List.mem_append_left _)
    (fun x hx => ?_) (fun k tx' hk ht => ?_) (fun tx' w ht _ => ?_) fun j n lg md tx' _ hs _ => ?_
  · rw [hseen] at hx
    exact ⟨List.mem_append_left _ (h.seen hg hx).1, (h.seen hg hx).2⟩
  · rw [txs, Function.update_of_ne hk] at ht
    refine ⟨ht, fun w hw => ⟨?_, ?_⟩⟩
    · simp only [Shared.install, Shared.rollback, h.locked ht hw, Option.some.injEq, hk, if_false]
    · have none : tx.wallets.find? (fun v => v.id = w.id) = none :=
        List.find?_eq_none.mpr fun v hv => by simpa using h.disjoint hk ht opened hw hv
      exact (written.find? w.id).trans (by rw [none]; rfl)
  · rw [txs, Function.update_self] at ht; cases ht
  · rw [hs] at stage; cases stage

theorem Sound.addWallet {w : Wallet} {t} (h : Sound sh g) (ins : sh.db.wallets.insert? w = some t) :
    Sound (sh.addWallet w t) g := by
  refine ⟨h.history.addWallet ins, fun hg hx => ⟨List.mem_append_left _ (h.seen hg hx).1,
    (h.seen hg hx).2⟩, h.locked, fun hg hj hs ht => ?_⟩
  have written := h.session hg hj hs ht
  refine written.frame fun v hv => ?_
  obtain ⟨l, v₀, hf, -⟩ := written.ahead hv
  have hne : w.id ≠ v.id := fun he => by
    rw [← he, show sh.book.wallets.find? w.id = none from (Table.insert?_eq_some.mp ins).1] at hf
    cases hf
  rw [show (sh.addWallet w t).book.wallets = t from rfl, Table.find?_of_insert? ins, if_neg hne]
  rfl

theorem Sound.setRequests {t} (h : Sound sh g) : Sound (sh.setRequests t) g :=
  ⟨⟨h.history.current, h.history.version⟩, h.seen, h.locked, h.session⟩

theorem Sound.move {op} (h : Sound sh g) (hg : g i = some (o, p)) (hm : Move i o sh p op sh' p') :
    Sound sh' (Function.update g i (some (o, p'))) := by
  have seen (hn : p'.seen = p.seen) : ∀ x ∈ p'.seen, x.2 ∈ sh.versions ∧ x.2.id = x.1 :=
    fun x hx => h.seen hg (hn ▸ hx)
  cases hm with
  | look same stage looked =>
    refine (h.keep hg (fun x hx => ?_) (.inl stage)).same same
    rcases looked x hx with hx | ⟨hx | hx, hid⟩
    · exact h.seen hg hx
    · exact ⟨hx, hid⟩
    · exact ⟨h.history.current _ hx, hid⟩
  | stop same stage hn => exact (h.keep hg (seen hn) (.inr (Stage.ne_session stage))).same same
  | record _ _ stage hn => exact (h.keep hg (seen hn) (.inr stage)).setRequests.note
  | preLog _ _ _ stage hn =>
    refine (h.keep hg (seen hn) (.inr fun n lg md hs => ?_)).setRequests.note
    rcases stage with hp | hp <;> rw [hp] at hs <;> cases hs
  | markFailed _ => exact (h.keep hg (seen rfl) (.inl rfl)).setRequests
  | createWallet _ ins => exact ((h.keep hg (seen rfl) (.inl rfl)).addWallet ins).note
  | begin _ _ stage hn =>
    refine h.setTx hg hn nofun fun j n lg md _ hs => ?_
    rcases stage with hp | hp <;> rw [hp] at hs <;> cases hs
    exact .empty
  | @write j n l lg md tx w _ job session leg known opened free current stage hn =>
    have written := h.session hg job session opened
    obtain ⟨reads, new⟩ := h.reads hg written known current
    refine (h.lock free).setTx hg hn (fun v hv => ?_) fun j' n' lg' md' hj hs => ?_
    · rcases List.mem_append.mp hv with hv | hv
      · exact (h.lock free).locked opened (List.mem_of_mem_filter hv)
      · cases List.mem_singleton.mp hv
        rw [Leg.write_id, reads.id]; exact Function.update_self _ _ _
    · rw [job] at hj; cases hj
      rcases stage with hp | hp <;> rw [hp] at hs <;> cases hs
      exact written.write leg reads new
  | mark job session opened stage hn =>
    refine h.setTx hg hn (fun w hw => h.locked opened hw) fun j' n' lg' md' hj hs => ?_
    rw [job] at hj; cases hj
    rcases stage with hp | hp <;> rw [hp] at hs <;> cases hs
    exact (h.session hg job session opened).mark
  | log job session opened stage hn =>
    refine h.setTx hg hn (fun w hw => h.locked opened hw) fun j' n' lg' md' hj hs => ?_
    rw [job] at hj; cases hj
    rcases stage with hp | hp <;> rw [hp] at hs <;> cases hs
    exact (h.session hg job session opened).log
  | commit job session opened ledger stage hn =>
    refine (h.install hg opened (h.session hg job session opened) ?_ hn).note
    rcases stage with hp | hp <;> rw [hp] <;> rfl
  | rollback stage hn => exact (h.keep hg (seen hn) (.inr (Stage.ne_session stage))).rollback

end

theorem sound_keeps (C : State → Step → Prop) (K : Shared → Threads → Prop) : Keeps C K Sound where
  same hs h := h.same hs
  start {sh g i o} hg h := by
    refine h.update h.history (fun _ => id) nofun (fun k tx _ ht => ⟨ht, fun _ _ => ⟨rfl, rfl⟩⟩)
      (fun tx w => h.locked) nofun
  move _ _ _ _ h hg hm := h.move hg hm
  kill h := h.rollback

omit [Arithmetic] in
theorem Quiet.history {s : State} (h : Quiet s) : s.shared.History where
  current _ hw := h.versions ▸ hw
  version v hv := ⟨v, Table.find?_eq_some.mpr ⟨h.versions ▸ hv, rfl⟩, .rfl, le_rfl, fun _ => rfl⟩

theorem Quiet.sound {s : State} (h : Quiet s) : Sound s.shared noThreads :=
  ⟨h.history, nofun, fun ht => (by rw [h.txs] at ht; cases ht), nofun⟩

/-! ## Steps of the service are steps of the book -/

omit [Arithmetic] in
theorem Shared.SameBooks.book {sh sh' : Shared} (h : sh.SameBooks sh') : sh'.book = sh.book := by
  simp only [Shared.book, h.wallets, h.transactions]

/-- One event of the journal, made by a thread that runs the job it commits. -/
structure Entry.Moves (e : Entry) (s t : State) : Prop where
  journal : t.shared.journal = s.shared.journal ++ [e]
  replay : s.shared.book.replay e.event = some t.shared.book
  thread : ∃ p, s.threads[e.thread]? = some ⟨e.origin, p⟩
  job : ∀ j, e.event = .committed j → e.origin.job? = some j
  new : ∀ w, e.event = .walletCreated w → w.New

/-- Either nothing happens to the book, or one event of the journal does. -/
def State.Replays (s t : State) : Prop :=
  (t.shared.journal = s.shared.journal ∧ t.shared.book = s.shared.book) ∨
  ∃ e : Entry, e.Moves s t

/-- The only way a wallet changes: a leg of the job a step commits. -/
theorem State.Replays.wallet {s t : State} {w w' : Wallet} (h : s.Replays t)
    (hw : w ∈ s.shared.db.wallets.rows) (hw' : w' ∈ t.shared.db.wallets.rows) (hid : w'.id = w.id) :
    w' = w ∨ ∃ (e : Entry) (j : Job) (l : Leg), e.Moves s t ∧ e.event = .committed j ∧ l ∈ j.legs ∧
      s.shared.book.Reads l w ∧ w' = l.write w := by
  rcases h with ⟨-, hb⟩ | ⟨e, hm⟩
  · rw [show t.shared.db.wallets = s.shared.db.wallets from congrArg Book.wallets hb] at hw'
    exact .inl (Table.eq_of_key _ hw' hw hid)
  by_cases he : ∃ j, e.event = .committed j
  · obtain ⟨j, he⟩ := he
    rcases Book.apply_wallet (he ▸ hm.replay) hw hw' hid with rfl | ⟨l, hl, hr, rfl⟩
    · exact .inl rfl
    · exact .inr ⟨e, j, l, hm, he, hl, hr, rfl⟩
  · have keep := Book.replay_keeps hm.replay (fun j hj => he ⟨j, hj⟩) w hw
    exact .inl (Table.eq_of_key _ hw' keep hid)

/-- Where the rows after a step come from. -/
theorem State.Replays.mem {s t : State} {w' : Wallet} (h : s.Replays t)
    (hw' : w' ∈ t.shared.db.wallets.rows) : w' ∈ s.shared.db.wallets.rows ∨ w'.New ∨
    ∃ (e : Entry) (j : Job) (l : Leg) (w : Wallet), e.Moves s t ∧ e.event = .committed j ∧
      l ∈ j.legs ∧ s.shared.book.Reads l w ∧ w' = l.write w := by
  rcases h with ⟨-, hb⟩ | ⟨e, hm⟩
  · have hws : t.shared.db.wallets = s.shared.db.wallets := congrArg Book.wallets hb
    exact .inl (hws ▸ hw')
  have hr := hm.replay
  cases he : e.event with
  | walletCreated w =>
    rw [he] at hr
    simp only [Book.replay, Option.map_eq_some_iff] at hr
    obtain ⟨ws, ins, hb⟩ := hr
    have hws : ws = t.shared.db.wallets := congrArg Book.wallets hb
    rw [← hws, (Table.insert?_eq_some.mp ins).2, List.mem_append, List.mem_singleton] at hw'
    rcases hw' with hw | rfl
    · exact .inl hw
    · exact .inr (.inl (hm.new w' he))
  | committed j =>
    rcases Book.apply_mem (he ▸ hr : s.shared.book.apply j = _) hw' with ⟨hw, -⟩ | ⟨l, hl, w, hr, rfl⟩
    · exact .inl hw
    · exact .inr (.inr ⟨e, j, l, w, hm, he, hl, hr, rfl⟩)
  | _ =>
    rw [he] at hr
    have hws : s.shared.db.wallets = t.shared.db.wallets :=
      congrArg Book.wallets (Option.some.inj hr)
    exact .inl (hws ▸ hw')

theorem step_replays {s t : State} {l : Step} {g : Threads}
    (ht : Machine.Tracks .crashed protocol Ends s.threads g) (hs : Sound s.shared g)
    (h : step s l = some t) : s.Replays t := by
  rcases step_cases ht h with same | ⟨i, he⟩ | ⟨i, c, o, op, k, p, p', -, hi, hg, hm⟩
  · exact .inl ⟨same.journal, same.book⟩
  · exact .inl (by rw [he]; exact ⟨rfl, rfl⟩)
  · obtain ⟨sh, ts⟩ := t
    simp only at hm
    have note {e} (hj : sh.journal = s.shared.journal ++ [⟨i, o, e⟩])
        (hr : s.shared.book.replay e = some sh.book) (hjob : ∀ j, e = .committed j → o.job? = some j)
        (hnew : ∀ w, e = .walletCreated w → w.New) :
        s.Replays ⟨sh, ts⟩ := .inr ⟨⟨i, o, e⟩, hj, hr, ⟨_, hi⟩, hjob, hnew⟩
    cases hm with
    | look same _ _ => exact .inl ⟨same.journal, same.book⟩
    | stop same _ _ => exact .inl ⟨same.journal, same.book⟩
    | record _ _ _ _ => exact note rfl rfl (fun j hj => by cases hj) fun w hw => by cases hw
    | preLog _ _ _ _ _ => exact note rfl rfl (fun j hj => by cases hj) fun w hw => by cases hw
    | createWallet new ins =>
      exact note rfl (by simp only [Book.replay, Shared.book, ins]; rfl) (fun j hj => by cases hj)
        fun w hw => by cases hw; exact new
    | commit job session opened ledger _ _ =>
      exact note rfl ((hs.session hg job session opened).apply ledger)
        (fun j hj => by cases hj; exact job) fun w hw => by cases hw
    | _ => exact .inl ⟨rfl, rfl⟩

section
variable {C : State → Step → Prop} {s t u : State} {l : Step}

/-- Sessions are sound in every state a wallet run reaches. -/
theorem Reach.sound (hC : ∀ s l, C s l → WalletRun s l) (hq : Quiet s) (h : Reach C s t) :
    ∃ g, Machine.Tracks .crashed protocol Ends t.threads g ∧ Sound t.shared g :=
  ((sound_keeps C _).stable).invariant (service_obeys hC) hq.tracks hq.sound h

/-- The protocol and the sessions of a wallet run, for invariants that need them. -/
def State.Known (s : State) : Prop :=
  ∃ g, Machine.Tracks .crashed protocol Ends s.threads g ∧ Sound s.shared g

theorem Reach.knowing_sound (hC : ∀ s l, C s l → WalletRun s l) (hq : Quiet s) (h : Reach C s t) :
    Reach (fun u l => C u l ∧ u.Known) s t :=
  Machine.Reach.knowing (fun _ hu => Reach.sound hC hq hu) h

/-- The service refines the book: every step of a wallet run replays at most one
event on it. -/
theorem Reach.replays (hC : ∀ s l, C s l → WalletRun s l) (hq : Quiet s) (h : Reach C s t)
    (hs : step t l = some u) : t.Replays u := by
  obtain ⟨g, ht, hsound⟩ := h.sound hC hq
  exact step_replays ht hsound hs

/-- The step commits this job. -/
def State.Commits (s : State) (l : Step) (j : Job) : Prop :=
  ∃ u e, step s l = some u ∧ u.shared.journal = s.shared.journal ++ [e] ∧ e.event = .committed j

/-- The entry of a commit is the one move of its step. -/
theorem State.Commits.moves {j : Job} (h : s.Commits l j) (hs : step s l = some t)
    (hr : s.Replays t) : ∃ e : Entry, e.Moves s t ∧ e.event = .committed j := by
  obtain ⟨u, e, hu, hj, he⟩ := h
  cases hs.symm.trans hu
  rcases hr with ⟨hsame, -⟩ | ⟨e', hm⟩
  · rw [hsame] at hj; simp at hj
  · rw [hm.journal] at hj
    cases List.singleton_inj.mp (List.append_cancel_left hj)
    exact ⟨e, hm, he⟩

/-- A commit applies its job to the book. -/
theorem State.Commits.applies {j : Job} (h : s.Commits l j) (hs : step s l = some t)
    (hr : s.Replays t) : s.shared.book.apply j = some t.shared.book := by
  obtain ⟨e, hm, he⟩ := h.moves hs hr
  have hb := hm.replay
  rwa [he] at hb

theorem Entry.Moves.commits {e : Entry} {j : Job} (h : e.Moves s t) (hs : step s l = some t)
    (he : e.event = .committed j) : s.Commits l j := ⟨t, e, hs, h.journal, he⟩

/-- The events alone tell that a step has committed a job. -/
theorem State.Replays.commits {j : Job} (h : s.Replays t) (hs : step s l = some t)
    (hj : t.shared.journal.map Entry.event = s.shared.journal.map Entry.event ++ [.committed j]) :
    s.Commits l j := by
  rcases h with ⟨hsame, -⟩ | ⟨e, hm⟩
  · rw [hsame] at hj; simp at hj
  · rw [hm.journal, List.map_append] at hj
    exact hm.commits hs (List.singleton_inj.mp (List.append_cancel_left hj))

/-- Without a commit the wallets there are stay as they are. -/
theorem State.Replays.rows_of_not_commits (h : s.Replays t) (hs : step s l = some t)
    (hn : ∀ j, ¬ s.Commits l j) : ∀ w ∈ s.shared.db.wallets.rows, w ∈ t.shared.db.wallets.rows := by
  rcases h with ⟨-, hb⟩ | ⟨e, hm⟩
  · have hws : t.shared.db.wallets = s.shared.db.wallets := congrArg Book.wallets hb
    exact fun w hw => hws ▸ hw
  · exact Book.replay_keeps hm.replay fun j hj => hn j (hm.commits hs hj)

/-- Replayed on the book of the beginning, the journal gives the present book. -/
theorem Reach.explains (hC : ∀ s l, C s l → WalletRun s l) (hq : Quiet s) (h : Reach C s t) :
    (t.shared.journal.map Entry.event).foldlM Book.replay s.shared.book = some t.shared.book := by
  induction h with
  | refl => rw [hq.journal]; rfl
  | tail hr _ hs ih =>
    rcases Reach.replays hC hq hr hs with ⟨hj, hb⟩ | ⟨e, hm⟩
    · rw [hj, hb, ih]
    · rw [hm.journal, List.map_append, List.foldlM_append, ih]
      simpa using hm.replay

end

end Pactic
