import Pactic.Protocol.Moves

/-! # One owner for each request

A thread that is past the pre-log owns the request row of its job until it
commits or gives up. Rows are never deleted, so a second owner would need a
second insert, and a request that was committed has no owner left. -/
namespace Pactic
open Keyed Resumption

def Event.committedId? : Event → Option String
  | committed j => some j.txId
  | _ => none

/-- The txIds of the committed jobs, in the order of their commits. -/
def Shared.committedIds (sh : Shared) : List String :=
  sh.journal.filterMap fun e => e.event.committedId?

theorem Shared.committedIds_note (sh : Shared) (i : Nat) (o : Origin) (e : Event) :
    (sh.note i o e).committedIds = sh.committedIds ++ e.committedId?.toList := by
  cases h : e.committedId? <;> simp [committedIds, note, List.filterMap_append, h]

def Shared.Recorded (sh : Shared) (t : String) : Prop := (sh.db.walletRequests.find? t).isSome

/-- Thread `i` concerns a job with this txId, by `who`, and stands at a stage of `st`. -/
def Standing (who : Origin → Option Job) (st : Stage → Bool) (g : Threads) (i : Nat)
    (t : String) : Prop :=
  ∃ o p j, g i = some (o, p) ∧ who o = some j ∧ j.txId = t ∧ st p.stage = true

/-- Thread `i` may still commit a job with this txId. -/
abbrev Live : Threads → Nat → String → Prop := Standing Origin.job? Stage.live

structure Owned (sh : Shared) (g : Threads) : Prop where
  row : ∀ {i t}, Live g i t → sh.Recorded t
  once : ∀ {i k t}, Live g i t → Live g k t → i = k
  uncommitted : ∀ {i t}, Live g i t → t ∉ sh.committedIds
  recorded : ∀ {t}, t ∈ sh.committedIds → sh.Recorded t
  nodup : sh.committedIds.Nodup

section
variable {sh sh' : Shared} {g g' : Threads} {i : Nat} {o : Origin} {p p' : Local} {t : String}
  {who : Origin → Option Job} {st : Stage → Bool}

theorem Standing.of_update {k} (h : Standing who st (Function.update g i (some (o, p))) k t) :
    k = i ∧ (∃ j, who o = some j ∧ j.txId = t ∧ st p.stage = true) ∨
      k ≠ i ∧ Standing who st g k t := by
  obtain ⟨o', q, j, hg, hj, ht, hl⟩ := h
  by_cases hk : k = i
  · subst hk
    simp only [Function.update_self, Option.some.injEq, Prod.mk.injEq] at hg
    obtain ⟨rfl, rfl⟩ := hg
    exact .inl ⟨rfl, j, hj, ht, hl⟩
  · rw [Function.update_of_ne hk] at hg
    exact .inr ⟨hk, o', q, j, hg, hj, ht, hl⟩

/-- A move that brings nobody to such a stage. -/
theorem Standing.of_stage (hg : g i = some (o, p))
    (hs : st p'.stage = true → st p.stage = true) (k t)
    (h : Standing who st (Function.update g i (some (o, p'))) k t) : Standing who st g k t := by
  rcases h.of_update with ⟨rfl, j, hj, ht, hl⟩ | ⟨-, h⟩
  · exact ⟨o, p, j, hg, hj, ht, hs hl⟩
  · exact h

/-- Only a commit by a live thread adds to the committed txIds. -/
theorem Move.committedIds [Arithmetic] {op} (h : Move i o sh p op sh' p') :
    sh'.committedIds = sh.committedIds ∨ ∃ j, o.job? = some j ∧ op = .tx .commit ∧
      p.stage.live = true ∧ sh'.committedIds = sh.committedIds ++ [j.txId] := by
  have noted {sh₁ : Shared} {e} (hj : sh₁.journal = sh.journal) :
      (sh₁.note i o e).committedIds = sh.committedIds ++ e.committedId?.toList := by
    rw [Shared.committedIds_note, Shared.committedIds, hj]; rfl
  cases h with
  | look same _ _ => exact .inl (by simp only [Shared.committedIds, same.journal])
  | stop same _ _ => exact .inl (by simp only [Shared.committedIds, same.journal])
  | record _ _ _ _ => exact .inl ((noted rfl).trans (List.append_nil _))
  | preLog _ _ _ _ _ => exact .inl ((noted rfl).trans (List.append_nil _))
  | createWallet _ _ => exact .inl ((noted rfl).trans (List.append_nil _))
  | commit job session _ _ _ _ => exact .inr ⟨_, job, rfl, by rw [session]; rfl, noted rfl⟩
  | _ => exact .inl rfl

/-- Nobody becomes an owner, no row is lost and nothing is committed. -/
theorem Owned.weaken (h : Owned sh g) (hlive : ∀ k t, Live g' k t → Live g k t)
    (hrow : ∀ t, sh.Recorded t → sh'.Recorded t) (hids : sh'.committedIds = sh.committedIds) :
    Owned sh' g' where
  row hl := hrow _ (h.row (hlive _ _ hl))
  once hl hk := h.once (hlive _ _ hl) (hlive _ _ hk)
  uncommitted hl := hids ▸ h.uncommitted (hlive _ _ hl)
  recorded ht := hrow _ (h.recorded (hids ▸ ht))
  nodup := hids ▸ h.nodup

theorem Shared.recorded_insert {r : WalletRequest} {rows} (ins : sh.db.walletRequests.insert? r = some rows)
    (h : sh.Recorded t) : (sh.setRequests rows).Recorded t := by
  simp only [Recorded, setRequests] at h ⊢
  rw [Table.find?_of_insert? ins]; split
  · rfl
  · exact h

theorem setStatus_isSome (tab : Table WalletRequest.txId) (x : String × Status) (t : String) :
    ((setStatus tab x).find? t).isSome = (tab.find? t).isSome := by
  unfold setStatus
  split
  · rw [Table.find?_put]; split <;> simp
  · rfl

theorem foldl_setStatus_isSome (xs : List (String × Status)) (tab : Table WalletRequest.txId)
    (t : String) : ((xs.foldl setStatus tab).find? t).isSome = (tab.find? t).isSome := by
  induction xs generalizing tab with
  | nil => rfl
  | cons x xs ih => rw [List.foldl_cons, ih, setStatus_isSome]

/-- No row is deleted. -/
theorem Move.recorded [Arithmetic] {op} (hm : Move i o sh p op sh' p') (h : sh.Recorded t) : sh'.Recorded t := by
  have same {sh₁ : Shared} (hr : sh₁.db.walletRequests = sh.db.walletRequests) : sh₁.Recorded t := by
    simpa only [Shared.Recorded, hr] using h
  cases hm with
  | look hsame _ _ => exact same hsame.walletRequests
  | stop hsame _ _ => exact same hsame.walletRequests
  | record _ ins _ _ => exact Shared.recorded_insert ins h
  | preLog _ _ ins _ _ => exact Shared.recorded_insert ins h
  | markFailed _ => simpa only [Shared.Recorded, Shared.setRequests, setStatus_isSome] using h
  | commit _ _ _ _ _ _ =>
    simpa only [Shared.Recorded, Shared.note, Shared.install, Shared.rollback,
      foldl_setStatus_isSome] using h
  | _ => exact same rfl

/-- The pre-log makes its thread the only owner: the row was not there before. -/
theorem Owned.preLog {j : Job} {rows} (h : Owned sh g)
    (hj : o.job? = some j) (ins : sh.db.walletRequests.insert? j.pending = some rows) :
    Owned ((sh.setRequests rows).note i o (.requestCreated j.txId))
      (Function.update g i (some (o, p'))) := by
  obtain ⟨hnone, -⟩ := Table.insert?_eq_some.mp ins
  have fresh : ¬ sh.Recorded j.txId := by
    unfold Shared.Recorded; rw [show sh.db.walletRequests.find? j.txId = none from hnone]; simp
  have new : (sh.setRequests rows).Recorded j.txId := by
    simp [Shared.Recorded, Shared.setRequests, Table.find?_of_insert? ins, Job.pending]
  have ids : ((sh.setRequests rows).note i o (.requestCreated j.txId)).committedIds =
      sh.committedIds := by rw [Shared.committedIds_note]; exact List.append_nil _
  constructor
  · intro k t hl
    rcases hl.of_update with ⟨-, j', hj', rfl, -⟩ | ⟨-, hl⟩
    · rw [hj] at hj'; cases hj'; exact new
    · exact Shared.recorded_insert ins (h.row hl)
  · intro k m t hk hm
    rcases hk.of_update with ⟨hki, j₁, hj₁, rfl, -⟩ | ⟨-, hk'⟩ <;>
      rcases hm.of_update with ⟨hmi, j₂, hj₂, ht, -⟩ | ⟨-, hm'⟩
    · rw [hki, hmi]
    · rw [hj] at hj₁; cases hj₁; exact absurd (h.row hm') fresh
    · rw [hj] at hj₂; cases hj₂; subst ht; exact absurd (h.row hk') fresh
    · exact h.once hk' hm'
  · intro k t hl
    rw [ids]
    rcases hl.of_update with ⟨-, j', hj', rfl, -⟩ | ⟨-, hl⟩
    · rw [hj] at hj'; cases hj'; exact fun hc => fresh (h.recorded hc)
    · exact h.uncommitted hl
  · intro t ht
    rw [ids] at ht; exact Shared.recorded_insert ins (h.recorded ht)
  · rw [ids]; exact h.nodup

/-- The owner commits and owns the request no more. -/
theorem Owned.commit {j : Job} (h : Owned sh g) (hg : g i = some (o, p)) (hj : o.job? = some j)
    (hp : p.stage.live = true) (hp' : p'.stage.live = false)
    (hrow : ∀ t, sh.Recorded t → sh'.Recorded t)
    (ids : sh'.committedIds = sh.committedIds ++ [j.txId]) :
    Owned sh' (Function.update g i (some (o, p'))) := by
  have own : Live g i j.txId := ⟨o, p, j, hg, hj, rfl, hp⟩
  have others {k t} (hl : Live (Function.update g i (some (o, p'))) k t) : k ≠ i ∧ Live g k t := by
    rcases hl.of_update with ⟨-, -, -, -, hl⟩ | hl
    · rw [hp'] at hl; cases hl
    · exact hl
  constructor
  · exact fun hl => hrow _ (h.row (others hl).2)
  · exact fun hk hm => h.once (others hk).2 (others hm).2
  · intro k t hl
    obtain ⟨hne, hl⟩ := others hl
    rw [ids, List.mem_append, List.mem_singleton]
    rintro (hc | rfl)
    · exact h.uncommitted hl hc
    · exact hne (h.once hl own)
  · intro t ht
    rw [ids, List.mem_append, List.mem_singleton] at ht
    rcases ht with ht | rfl
    · exact hrow _ (h.recorded ht)
    · exact hrow _ (h.row own)
  · rw [ids, List.nodup_append]
    refine ⟨h.nodup, List.nodup_singleton _, ?_⟩
    rintro a ha b hb rfl
    exact h.uncommitted own (List.mem_singleton.mp hb ▸ ha)

theorem Owned.move [Arithmetic] {op} (h : Owned sh g) (hg : g i = some (o, p)) (hm : Move i o sh p op sh' p') :
    Owned sh' (Function.update g i (some (o, p'))) := by
  have rows (t) (ht : sh.Recorded t) : sh'.Recorded t := hm.recorded ht
  -- the stages of a session are those of an owner
  have inside (hs : p.stage.live = true) (hj : sh'.committedIds = sh.committedIds) :
      Owned sh' (Function.update g i (some (o, p'))) := h.weaken (Standing.of_stage hg fun _ => hs) rows hj
  cases hm with
  | look same stage _ =>
    exact h.weaken (Standing.of_stage hg (by rw [stage]; exact id)) rows
      (by simp only [Shared.committedIds, same.journal])
  | stop same stage _ =>
    exact h.weaken (Standing.of_stage hg (by rw [stage]; intro hl; cases hl)) rows
      (by simp only [Shared.committedIds, same.journal])
  | record job ins _ _ =>
    refine h.weaken (fun k t hl => ?_) rows ?_
    · rcases hl.of_update with ⟨-, j, hj, -⟩ | ⟨-, hl⟩
      · rw [job] at hj; cases hj
      · exact hl
    · rw [Shared.committedIds_note]; exact List.append_nil _
  | preLog job _ ins _ _ => exact h.preLog job ins
  | markFailed job => exact h.weaken (Standing.of_stage hg id) rows rfl
  | createWallet _ _ =>
    refine h.weaken (Standing.of_stage hg id) rows ?_
    rw [Shared.committedIds_note]; exact List.append_nil _
  | begin _ owner _ _ => exact inside (by rw [owner]; rfl) rfl
  | write _ session _ _ _ _ _ _ _ => exact inside (by rw [session]; rfl) rfl
  | mark _ session _ _ _ => exact inside (by rw [session]; rfl) rfl
  | log _ session _ _ _ => exact inside (by rw [session]; rfl) rfl
  | commit job session _ _ stage _ =>
    refine h.commit hg job (by rw [session]; rfl) ?_ rows ?_
    · rcases stage with hs | hs <;> rw [hs] <;> rfl
    · rw [Shared.committedIds_note]; rfl
  | rollback stage _ =>
    exact h.weaken (Standing.of_stage hg (by rw [stage]; intro hl; cases hl)) rows rfl

end

theorem owned_keeps [Arithmetic] (C : State → Step → Prop) (K : Shared → Threads → Prop) : Keeps C K Owned where
  same hs h := h.weaken (fun _ _ => id)
    (fun t ht => by simpa only [Shared.Recorded, hs.walletRequests] using ht)
    (by simp only [Shared.committedIds, hs.journal])
  start _ h := by
    refine h.weaken (fun k t hl => ?_) (fun t => id) rfl
    rcases hl.of_update with ⟨-, j, -, -, hl⟩ | ⟨-, hl⟩
    · cases hl
    · exact hl
  move _ _ _ _ h hg hm := h.move hg hm
  kill h := h.weaken (fun _ _ => id) (fun t => id) rfl

theorem Quiet.owned {s : State} (h : Quiet s) : Owned s.shared noThreads := by
  have noLive {i t} : ¬ Live noThreads i t := by rintro ⟨o, p, j, hg, -⟩; cases hg
  have ids : s.shared.committedIds = [] := by simp [Shared.committedIds, h.journal]
  exact ⟨fun hl => absurd hl noLive, fun hl => absurd hl noLive, fun hl => absurd hl noLive,
    fun hc => absurd (ids ▸ hc) List.not_mem_nil, ids ▸ List.nodup_nil⟩

end Pactic
