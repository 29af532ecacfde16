import Pactic.Protocol.Books
import Pactic.Protocol.Requests
import Pactic.Wallets.Balances

/-! # What a request row says

One catch block covers a whole handler, the work after the commit included, and
sets the row to failed by its txId alone. As long as no catch block does so to
a request that is committed, the row tells the truth. -/
namespace Pactic
open Keyed Resumption

/-- The request row of `txId` was inserted by the pre-log of a processor. -/
def Shared.PreLogged (sh : Shared) (txId : String) : Prop :=
  ∃ e ∈ sh.journal, e.event = .requestCreated txId ∧ e.origin.job?.isSome = true

/-- A job with this txId is committed, and its ledger rows exist. -/
def Shared.Moved (sh : Shared) (txId : String) : Prop :=
  ∃ j, .committed j ∈ sh.journal.map Entry.event ∧ j.txId = txId ∧
    ∀ d ∈ j.rows, d.store ∈ sh.db.transactions.rows

/-- No catch block overwrites the status of a request that is committed. -/
def CatchSpares (s : State) (l : Step) : Prop :=
  WalletRun s l ∧ ∀ i c o txId status k, l = .run i c → c ≠ .fail →
    s.threads[i]? = some ⟨o, .call (.prisma (.walletRequestUpdateMany txId status)) k⟩ →
    txId ∉ s.shared.committedIds

/-- Every pre-logged row is a success exactly when its job is committed. -/
def Truthful (sh : Shared) : Prop := ∀ txId, sh.PreLogged txId →
  ∃ r, sh.db.walletRequests.find? txId = some r ∧ (r.status = .success ↔ txId ∈ sh.committedIds)

section
variable {sh sh' : Shared} {g : Threads} {i : Nat} {o : Origin} {p p' : Local} {txId : String}

theorem Shared.preLogged_note {e} (h : (sh.note i o e).PreLogged txId) : sh.PreLogged txId ∨
    e = .requestCreated txId ∧ o.job?.isSome = true := by
  obtain ⟨x, hx, he, hj⟩ := h
  rcases List.mem_append.mp hx with hx | hx
  · exact .inl ⟨x, hx, he, hj⟩
  · cases List.mem_singleton.mp hx; exact .inr ⟨he, hj⟩

/-- The journal only grows. -/
theorem Shared.PreLogged.more {es} (h : sh.PreLogged txId) (hj : sh'.journal = sh.journal ++ es) :
    sh'.PreLogged txId := by
  obtain ⟨e, he, rest⟩ := h
  exact ⟨e, hj ▸ List.mem_append_left _ he, rest⟩

theorem setStatus_find? (tab : Table WalletRequest.txId) (x : String × Status) (t : String) :
    (setStatus tab x).find? t =
      if x.1 = t then (tab.find? t).map fun r => { r with status := x.2 } else tab.find? t := by
  unfold setStatus
  split
  · next r hr =>
    have hid := (Table.find?_eq_some.mp hr).2
    rw [Table.find?_put]
    simp only [hid]
    split
    · next he => subst he; rw [hr]; simp [hid]
    · rfl
  · next hr =>
    split
    · next he => subst he; rw [hr]; rfl
    · rfl

theorem Truthful.weaken (h : Truthful sh) (hp : ∀ t, sh'.PreLogged t → sh.PreLogged t)
    (hf : ∀ t r, sh.PreLogged t → sh.db.walletRequests.find? t = some r →
      sh'.db.walletRequests.find? t = some r)
    (hc : sh'.committedIds = sh.committedIds) : Truthful sh' := by
  intro t ht
  obtain ⟨r, hr, hs⟩ := h t (hp t ht)
  exact ⟨r, hf t r (hp t ht) hr, hc ▸ hs⟩

/-- Nothing happens to the rows, the pre-logs and the commits. -/
theorem Truthful.same (h : Truthful sh) (hr : sh'.db.walletRequests = sh.db.walletRequests)
    (hj : sh'.journal = sh.journal) : Truthful sh' :=
  h.weaken (fun t ⟨e, he, rest⟩ => ⟨e, hj ▸ he, rest⟩) (fun t r _ hf => by rw [hr]; exact hf)
    (by simp only [Shared.committedIds, hj])

/-- A new row is not one that was pre-logged before. -/
theorem Truthful.insert {row : WalletRequest} {rows} (h : Truthful sh)
    (ins : sh.db.walletRequests.insert? row = some rows) : Truthful (sh.setRequests rows) := by
  refine h.weaken (fun t => id) (fun t r _ hf => ?_) rfl
  have hne : row.txId ≠ t := fun he => by
    rw [← he, (Table.insert?_eq_some.mp ins).1] at hf; cases hf
  simp only [Shared.setRequests, Table.find?_of_insert? ins, if_neg hne, hf]

theorem Truthful.note {e} (h : Truthful sh) (hc : e.committedId? = none)
    (hn : ∀ t, e = .requestCreated t → o.job?.isSome = true →
      ∃ r, sh.db.walletRequests.find? t = some r ∧ (r.status = .success ↔ t ∈ sh.committedIds)) :
    Truthful (sh.note i o e) := by
  have ids : (sh.note i o e).committedIds = sh.committedIds := by
    rw [Shared.committedIds_note, hc]; exact List.append_nil _
  intro t ht
  rw [ids]
  rcases Shared.preLogged_note ht with ht | ⟨rfl, hj⟩
  · exact h t ht
  · exact hn t rfl hj

theorem Truthful.markFailed {t : String} (h : Truthful sh) (ht : t ∉ sh.committedIds) :
    Truthful (sh.setRequests (setStatus sh.db.walletRequests (t, .failed))) := by
  intro t' hp
  obtain ⟨r, hr, hs⟩ := h t' hp
  simp only [Shared.setRequests, setStatus_find?]
  split
  · next he =>
    subst he
    exact ⟨{ r with status := .failed }, by rw [hr]; rfl, iff_of_false (by simp) ht⟩
  · exact ⟨r, hr, hs⟩

/-- The commit and the status it sets are one step. -/
theorem Truthful.commit {j : Job} {tx t} (h : Truthful sh) (hr : tx.requests = [(j.txId, .success)]) :
    Truthful ((sh.install i tx t).note i o (.committed j)) := by
  have ids : ((sh.install i tx t).note i o (.committed j)).committedIds =
      sh.committedIds ++ [j.txId] := by rw [Shared.committedIds_note]; rfl
  intro t' hp
  have hp : sh.PreLogged t' := (Shared.preLogged_note hp).resolve_right nofun
  obtain ⟨r, hf, hs⟩ := h t' hp
  rw [ids, List.mem_append, List.mem_singleton]
  simp only [Shared.note, Shared.install, Shared.rollback, hr, List.foldl_cons, List.foldl_nil,
    setStatus_find?]
  split
  · next he =>
    subst he
    exact ⟨_, by rw [hf]; rfl, iff_of_true rfl (.inr rfl)⟩
  · next hne =>
    refine ⟨r, hf, hs.trans ⟨.inl, fun hc => hc.resolve_right fun he => hne he.symm⟩⟩

theorem Truthful.move {op} (owned : Owned sh g) (sound : Sound sh g) (h : Truthful sh)
    (hg : g i = some (o, p)) (hm : Move i o sh p op sh' p')
    (spares : ∀ t s, op = .prisma (.walletRequestUpdateMany t s) → t ∉ sh.committedIds ∨ sh' = sh) :
    Truthful sh' := by
  cases hm with
  | look hsame _ _ => exact h.same hsame.walletRequests hsame.journal
  | stop hsame _ _ => exact h.same hsame.walletRequests hsame.journal
  | record job ins _ _ => exact (h.insert ins).note rfl fun t _ hj => by rw [job] at hj; cases hj
  | @preLog j rows _ job fresh ins _ _ =>
    refine (h.insert ins).note rfl fun t he _ => ?_
    cases he
    have hnone : sh.db.walletRequests.find? j.txId = none := (Table.insert?_eq_some.mp ins).1
    refine ⟨j.pending, ?_, iff_of_false (fun hs => by cases hs) fun hc => ?_⟩
    · exact (Table.find?_of_insert? ins j.txId).trans (if_pos rfl)
    · have := owned.recorded hc
      rw [Shared.Recorded, hnone] at this
      cases this
  | markFailed job =>
    rcases spares _ _ rfl with ht | he
    · exact h.markFailed ht
    · rw [he]; exact h
  | createWallet _ _ =>
    exact (h.same rfl rfl : Truthful (sh.addWallet _ _)).note rfl fun t he _ => by cases he
  | commit job session opened _ _ _ =>
    exact h.commit ((sound.session hg job session opened).requests.trans (if_pos rfl))
  | _ => exact h.same rfl rfl

end

theorem truthful_keeps : Keeps CatchSpares (fun sh g => True ∧ Owned sh g ∧ Sound sh g)
    (fun sh _ => Truthful sh) where
  same hs h := h.same hs.walletRequests hs.journal
  start _ h := h
  kill h := h
  move {s i c o op k sh' p p' g} hc ht he hk h hg hm := by
    refine h.move hk.2.1 hk.2.2 hg hm fun t status hop => ?_
    subst hop
    by_cases hf : c = .fail
    · subst hf
      obtain ⟨r, he⟩ := he
      cases he; exact .inr rfl
    · exact .inl (hc.2 i c o t status k rfl hf ht)

/-! ## What a catch block breaks stays broken -/

/-- Whoever may commit has pre-logged, and so has whoever has committed. -/
structure Logged (sh : Shared) (g : Threads) : Prop where
  live : ∀ {i t}, Live g i t → sh.PreLogged t
  committed : ∀ {t}, t ∈ sh.committedIds → sh.PreLogged t

/-- The row of a committed request says failed. -/
def Wrong (txId : String) (sh : Shared) : Prop :=
  txId ∈ sh.committedIds ∧ ∃ r, sh.db.walletRequests.find? txId = some r ∧ r.status = .failed

section
variable {sh sh' : Shared} {g : Threads} {i : Nat} {o : Origin} {p p' : Local} {txId : String}

theorem Logged.weaken {g' : Threads} (h : Logged sh g) (hlive : ∀ k t, Live g' k t → Live g k t)
    (hj : ∃ es, sh'.journal = sh.journal ++ es) (hc : sh'.committedIds = sh.committedIds) :
    Logged sh' g' := by
  obtain ⟨es, hj⟩ := hj
  exact ⟨fun hl => (h.live (hlive _ _ hl)).more hj, fun ht => (h.committed (hc ▸ ht)).more hj⟩

theorem Logged.move {op} (h : Logged sh g) (hg : g i = some (o, p)) (hm : Move i o sh p op sh' p') :
    Logged sh' (Function.update g i (some (o, p'))) := by
  have stay {sh₁ : Shared} (hs : p'.stage.live = true → p.stage.live = true)
      (hj : sh₁.journal = sh.journal) : Logged sh₁ (Function.update g i (some (o, p'))) :=
    h.weaken (Standing.of_stage hg hs) ⟨[], by rw [hj, List.append_nil]⟩
      (by simp only [Shared.committedIds, hj])
  cases hm with
  | look same stage _ => exact stay (by rw [stage]; exact id) same.journal
  | stop same stage _ => exact stay (by rw [stage]; intro hl; cases hl) same.journal
  | record job _ _ _ =>
    refine h.weaken (fun k t hl => ?_) ⟨_, rfl⟩ (by rw [Shared.committedIds_note]; exact List.append_nil _)
    rcases hl.of_update with ⟨-, j, hj, -⟩ | ⟨-, hl⟩
    · rw [job] at hj; cases hj
    · exact hl
  | @preLog j rows _ job _ _ _ _ =>
    have new : ((sh.setRequests rows).note i o (.requestCreated j.txId)).PreLogged j.txId :=
      ⟨_, List.mem_append_right _ (List.mem_singleton_self _), rfl, by rw [job]; rfl⟩
    refine ⟨fun {k t} hl => ?_, fun {t} ht => (h.committed ?_).more rfl⟩
    · rcases hl.of_update with ⟨-, j', hj', rfl, -⟩ | ⟨-, hl⟩
      · rw [job] at hj'; cases hj'; exact new
      · exact (h.live hl).more rfl
    · rw [Shared.committedIds_note] at ht
      rw [show Event.committedId? _ = none from rfl, Option.toList_none, List.append_nil] at ht
      exact ht
  | createWallet _ _ =>
    exact h.weaken (Standing.of_stage hg id) ⟨_, rfl⟩ (by rw [Shared.committedIds_note]; exact List.append_nil _)
  | begin _ owner _ _ => exact stay (fun _ => by rw [owner]; rfl) rfl
  | write _ session _ _ _ _ _ _ _ => exact stay (fun _ => by rw [session]; rfl) rfl
  | mark _ session _ _ _ => exact stay (fun _ => by rw [session]; rfl) rfl
  | log _ session _ _ _ => exact stay (fun _ => by rw [session]; rfl) rfl
  | @commit j tx t _ job session _ _ _ _ =>
    have own : Live g i j.txId := ⟨o, p, j, hg, job, rfl, by rw [session]; rfl⟩
    refine ⟨fun {k t'} hl =>
        (h.live (Standing.of_stage hg (fun _ => by rw [session]; rfl) k t' hl)).more rfl,
      fun {t'} ht => .more ?_ rfl⟩
    rw [Shared.committedIds_note, List.mem_append] at ht
    rcases ht with ht | ht
    · exact h.committed ht
    · cases List.mem_singleton.mp ht; exact h.live own
  | markFailed _ => exact stay id rfl
  | rollback stage _ => exact stay (by rw [stage]; intro hl; cases hl) rfl

theorem Wrong.move {op} (owned : Owned sh g) (sound : Sound sh g) (h : Wrong txId sh)
    (hg : g i = some (o, p)) (hm : Move i o sh p op sh' p') : Wrong txId sh' := by
  obtain ⟨hc, r, hr, hs⟩ := h
  have same {sh₁ : Shared} (hrow : sh₁.db.walletRequests = sh.db.walletRequests)
      (hj : sh₁.journal = sh.journal) : Wrong txId sh₁ :=
    ⟨by simpa only [Shared.committedIds, hj] using hc, r, by rw [hrow]; exact hr, hs⟩
  have insert {row : WalletRequest} {rows} (ins : sh.db.walletRequests.insert? row = some rows) :
      rows.find? txId = some r := by
    rw [Table.find?_of_insert? ins, if_neg fun he => ?_]
    · exact hr
    · rw [← he, (Table.insert?_eq_some.mp ins).1] at hr; cases hr
  have noted {sh₁ : Shared} {e} (hj : sh₁.journal = sh.journal) :
      txId ∈ (sh₁.note i o e).committedIds := by
    rw [Shared.committedIds_note]
    exact List.mem_append_left _ (by simpa only [Shared.committedIds, hj] using hc)
  cases hm with
  | look hsame _ _ => exact same hsame.walletRequests hsame.journal
  | stop hsame _ _ => exact same hsame.walletRequests hsame.journal
  | record _ ins _ _ => exact ⟨noted rfl, r, insert ins, hs⟩
  | preLog _ _ ins _ _ => exact ⟨noted rfl, r, insert ins, hs⟩
  | createWallet _ _ => exact ⟨noted rfl, r, hr, hs⟩
  | markFailed _ =>
    refine ⟨hc, ?_⟩
    simp only [Shared.setRequests, setStatus_find?]
    split
    · exact ⟨_, by rw [hr]; rfl, rfl⟩
    · exact ⟨r, hr, hs⟩
  | commit job session opened _ _ _ =>
    refine ⟨noted rfl, r, ?_, hs⟩
    have hreq := (sound.session hg job session opened).requests.trans (if_pos rfl)
    simp only [Shared.note, Shared.install, Shared.rollback, hreq, List.foldl_cons, List.foldl_nil,
      setStatus_find?]
    rw [if_neg fun he => ?_]
    · exact hr
    · exact owned.uncommitted ⟨o, p, _, hg, job, he, by rw [session]; rfl⟩ hc
  | _ => exact same rfl rfl

end

/-- A catch block that takes effect on a committed request makes its row wrong. -/
theorem wrong_of_updateMany {s t : State} {i c o} {k : Except Err Unit → Proc Reply} {txId : String}
    (hi : s.threads[i]? = some ⟨o, .call (.prisma (.walletRequestUpdateMany txId .failed)) k⟩)
    (hc : c ≠ .fail) (hs : step s (.run i c) = some t) (hmem : txId ∈ s.shared.committedIds)
    (hrow : s.shared.Recorded txId) : Wrong txId t.shared := by
  obtain ⟨sh, r, he, rfl⟩ := (Machine.step_run hi).mp hs
  have hsh : sh = s.shared.setRequests (setStatus s.shared.db.walletRequests (txId, .failed)) := by
    cases c with
    | ok a => cases he; rfl
    | fail => exact absurd rfl hc
    | failAfter a => cases he; rfl
  subst hsh
  obtain ⟨r, hr⟩ := Option.isSome_iff_exists.mp hrow
  refine ⟨hmem, { r with status := .failed }, ?_, rfl⟩
  simp only [Shared.setRequests, setStatus_find?, if_true, hr, Option.map_some]

theorem logged_keeps (C : State → Step → Prop) (K : Shared → Threads → Prop) :
    Keeps C K Logged where
  same hs h := h.weaken (fun _ _ => id) ⟨[], by rw [hs.journal, List.append_nil]⟩
    (by simp only [Shared.committedIds, hs.journal])
  start _ h := by
    refine h.weaken (fun k t hl => ?_) ⟨[], (List.append_nil _).symm⟩ rfl
    rcases hl.of_update with ⟨-, j, -, -, hl⟩ | ⟨-, hl⟩
    · cases hl
    · exact hl
  move _ _ _ _ h hg hm := h.move hg hm
  kill h := h.weaken (fun _ _ => id) ⟨[], (List.append_nil _).symm⟩ rfl

theorem wrong_keeps (txId : String) : Keeps WalletRun (fun sh g => True ∧ Owned sh g ∧ Sound sh g)
    (fun sh _ => Wrong txId sh) where
  same hs h := by
    obtain ⟨hc, r, hr, hst⟩ := h
    exact ⟨by simpa only [Shared.committedIds, hs.journal] using hc, r,
      by rw [hs.walletRequests]; exact hr, hst⟩
  start _ h := h
  kill h := h
  move _ _ _ hk h hg hm := h.move hk.2.1 hk.2.2 hg hm

theorem Event.committedId?_eq_some {e : Event} {txId : String} :
    e.committedId? = some txId ↔ ∃ j, e = .committed j ∧ j.txId = txId := by
  cases e <;> simp [committedId?]

/-- Whatever is committed is in the ledger. -/
theorem Reach.moved_iff {C : State → Step → Prop} {s t : State} (hC : ∀ s l, C s l → WalletRun s l)
    (hq : Quiet s) (h : Reach C s t) (txId : String) :
    t.shared.Moved txId ↔ txId ∈ t.shared.committedIds := by
  have ids : txId ∈ t.shared.committedIds ↔
      ∃ j, .committed j ∈ t.shared.journal.map Entry.event ∧ j.txId = txId := by
    simp only [Shared.committedIds, List.mem_filterMap, Event.committedId?_eq_some, List.mem_map]
    constructor
    · intro h
      obtain ⟨e, he, j, hj, ht⟩ := h
      exact ⟨j, ⟨e, he, hj⟩, ht⟩
    · intro h
      obtain ⟨j, ⟨e, he, hj⟩, ht⟩ := h
      exact ⟨e, he, j, hj, ht⟩
  rw [ids]
  constructor
  · intro moved
    obtain ⟨j, hj, ht, -⟩ := moved
    exact ⟨j, hj, ht⟩
  · intro committed
    obtain ⟨j, hj, ht⟩ := committed
    exact ⟨j, hj, ht, (Book.replay_ledger (h.explains hC hq)).2 j hj⟩

/-- In every run whose catch blocks spare the committed requests, a row that a
processor inserted is a success exactly when its money has moved, and a failed
row has no committed job. A catch block that does not spare one leaves it failed
for ever. -/
theorem status_tells_the_truth {s : State} (hq : Quiet s) :
    (∀ t, Reach CatchSpares s t → ∀ txId, t.shared.PreLogged txId →
      ∃ r, t.shared.db.walletRequests.find? txId = some r ∧
        (r.status = .success ↔ t.shared.Moved txId) ∧
        (r.status = .failed → txId ∉ t.shared.committedIds)) ∧
    ∀ t l u, Reach WalletRun s t → WalletRun t l → step t l = some u → ¬ CatchSpares t l →
      ∃ txId, t.shared.PreLogged txId ∧ ∀ v, Reach WalletRun u v → Wrong txId v.shared := by
  have base (C : State → Step → Prop) := ((owned_keeps C fun _ _ => True).stable).and
    (sound_keeps C _).stable
  constructor
  · intro t h txId hp
    have start : Truthful s.shared := by
      rintro txId ⟨e, he, -⟩
      rw [hq.journal] at he; cases he
    obtain ⟨g, -, -, htrue⟩ := ((base CatchSpares).and truthful_keeps.stable).invariant
      (service_obeys fun _ _ h => h.1) hq.tracks ⟨⟨hq.owned, hq.sound⟩, start⟩ h
    obtain ⟨r, hr, hs⟩ := htrue txId hp
    refine ⟨r, hr, hs.trans (Reach.moved_iff (fun _ _ hc => hc.1) hq h txId).symm, fun hf hc => ?_⟩
    rw [hs.mpr hc] at hf; cases hf
  · intro t l u h hl hs hn
    have start : Logged s.shared noThreads := by
      refine ⟨fun ⟨o, p, j, hg, _⟩ => (nomatch hg), fun ht => ?_⟩
      rw [Shared.committedIds, hq.journal] at ht; cases ht
    have obeys := service_obeys (fun _ _ => id : ∀ s l, WalletRun s l → WalletRun s l)
    have all := (base WalletRun).and (logged_keeps WalletRun _).stable
    obtain ⟨g, ht, ⟨owned, sound⟩, logged⟩ := all.invariant obeys hq.tracks
      ⟨⟨hq.owned, hq.sound⟩, start⟩ h
    obtain ⟨g', ht', ⟨owned', sound'⟩, -⟩ := all.step obeys ht ⟨⟨owned, sound⟩, logged⟩ hl hs
    simp only [CatchSpares, not_and, not_forall, not_not] at hn
    obtain ⟨i, c, o, txId, status, k, rfl, hc, hi, hmem⟩ := hn hl
    have wrong : Wrong txId u.shared := by
      obtain ⟨q, -, ⟨rfl, -⟩, -⟩ := ht.called hi
      exact wrong_of_updateMany hi hc hs hmem (owned.recorded hmem)
    refine ⟨txId, logged.committed hmem, fun v hv => ?_⟩
    obtain ⟨-, -, -, hw⟩ := ((base WalletRun).and (wrong_keeps txId).stable).invariant obeys ht'
      ⟨⟨owned', sound'⟩, wrong⟩ hv
    exact hw

/-- The thread is about to set the status of this request. -/
def ServiceThread.marks (th : ServiceThread) (txId : String) : Bool :=
  match th.prog with
  | .call (.prisma (.walletRequestUpdateMany t _)) _ => t = txId
  | _ => false

theorem not_catchSpares {s : State} {i : Nat} {th : ServiceThread} {a : Answer} {txId : String}
    (hi : s.threads[i]? = some th) (hm : th.marks txId = true)
    (hc : txId ∈ s.shared.committedIds) : ¬ CatchSpares s (.run i (.ok a)) := by
  obtain ⟨o, prog⟩ := th
  simp only [ServiceThread.marks] at hm
  split at hm
  · cases of_decide_eq_true hm
    exact fun h => h.2 _ _ _ _ _ _ rfl nofun hi hc
  · cases hm

/-- A deposit that commits and then cannot reach the cache. -/
def depositThenCacheDown : List Step := depositInto 10 ++ [.run 2 .fail]

/-- No catch block is about to set a status. -/
def noCatch (s : State) (l : Step) : Bool :=
  l.ofWallets && match l with
    | .run i _ => s.threads[i]?.all fun th => match th.prog with
      | .call (.prisma (.walletRequestUpdateMany _ _)) _ => false
      | _ => true
    | _ => true

theorem catchSpares_of_noCatch {s : State} {l : Step} (h : noCatch s l = true) :
    CatchSpares s l := by
  obtain ⟨hw, h⟩ := (Bool.and_eq_true _ _).mp h
  refine ⟨hw, fun i c o txId status k hl _ hi => ?_⟩
  subst hl
  simp only [hi, Option.all_some, Bool.false_eq_true] at h

theorem depositInto_preLogged : ∃ t, Reach CatchSpares State.empty t ∧ t.shared.PreLogged "a" := by
  have h : (service.runsIf .crashed noCatch (depositInto 10) State.empty).any (fun t =>
      t.shared.journal.any fun e => e.event = .requestCreated "a" ∧ e.origin.job?.isSome = true) =
      true := by decide +kernel
  obtain ⟨t, ht, hp⟩ := Option.any_eq_true _ _ |>.mp h
  exact ⟨t, Machine.reach_of_runsIf (fun _ _ => catchSpares_of_noCatch) ht,
    by simpa [Shared.PreLogged] using hp⟩

theorem status_tells_the_truth_deposit :
    (∃ t, Reach CatchSpares State.empty t ∧ t.shared.PreLogged "a" ∧
      ∃ r, t.shared.db.walletRequests.find? "a" = some r ∧
        (r.status = .success ↔ t.shared.Moved "a")) ∧
    ∃ u, Reach WalletRun State.empty u ∧
      ∃ txId, ∀ v, Reach WalletRun u v → Wrong txId v.shared := by
  constructor
  · obtain ⟨t, reach, logged⟩ := depositInto_preLogged
    obtain ⟨r, hr, hs, -⟩ := (status_tells_the_truth State.empty_quiet).1 t reach "a" logged
    exact ⟨t, reach, logged, r, hr, hs⟩
  · have h : ((runSteps depositThenCacheDown State.empty).bind fun t =>
        (step t (.run 2 (.ok {}))).map fun _ => decide ("a" ∈ t.shared.committedIds ∧
          t.threads[2]?.any (ServiceThread.marks · "a"))) = some true := by decide +kernel
    obtain ⟨t, u, ht, hu, hp⟩ := runSteps_step h
    obtain ⟨hc, hth⟩ := of_decide_eq_true hp
    obtain ⟨th, hi, hm⟩ := Option.any_eq_true _ _ |>.mp hth
    have last : WalletRun t (.run 2 (.ok {})) := rfl
    have reach : Reach WalletRun State.empty t := reach_of_runSteps rfl ht
    obtain ⟨txId, -, hw⟩ := (status_tells_the_truth State.empty_quiet).2 t _ u reach last hu
      (not_catchSpares hi hm hc)
    exact ⟨u, reach.tail last hu, txId, hw⟩

/-- All handlers have finished, the deposit is committed, and its row says failed. -/
theorem committed_deposit_marked_failed : ∃ t, Reach WalletRun State.empty t ∧
    (∀ th ∈ t.threads, th.prog.finished = true) ∧ t.shared.PreLogged "a" ∧ Wrong "a" t.shared := by
  have h : ((runSteps (depositThenCacheDown ++ calls 2 5) State.empty).any fun t =>
      t.threads.all (·.prog.finished) ∧
      (t.shared.journal.any fun e => e.event = .requestCreated "a" ∧ e.origin.job?.isSome = true) ∧
      "a" ∈ t.shared.committedIds ∧
      (t.shared.db.walletRequests.find? "a").any fun r => r.status = .failed) = true := by
    decide +kernel
  obtain ⟨t, ht, hp⟩ := runSteps_any h
  obtain ⟨hfin, hlog, hc, hrow⟩ := of_decide_eq_true hp
  refine ⟨t, reach_of_runSteps rfl ht, by simpa using hfin, ?_, hc, ?_⟩
  · simpa [Shared.PreLogged] using hlog
  · simpa [Option.any_eq_true] using hrow

end Pactic
