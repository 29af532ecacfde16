import Pactic.Protocol.Calls
import Pactic.Protocol.Handover
import Pactic.Wallets.Balances

/-! # Wallets made under one txId

`createWallet` looks its txId up first, inserts the wallet and records the txId
last. Between the lookup and the record any other call with the txId passes the
same lookup. -/
namespace Pactic
open Keyed Resumption

def Origin.creates? : Origin → Option CreateWalletDto
  | http _ (.createWallet b) => some b
  | _ => none

/-- The wallet that an entry notes, if a `createWallet` call with this txId made it. -/
def Entry.creation? (txId : String) (e : Entry) : Option Wallet :=
  match e.origin.creates?, e.event with
  | some b, .walletCreated w => if b.txId = txId then some w else none
  | _, _ => none

/-- The wallets that `createWallet` calls with this txId have made. -/
def Shared.creations (sh : Shared) (txId : String) : List Wallet :=
  sh.journal.filterMap (Entry.creation? txId)

def Wallet.IsFor (w : Wallet) (b : CreateWalletDto) : Prop :=
  w.userId = b.userId ∧ w.currency = b.currency

/-- The `createWallet` call that has passed its lookup and may still insert its wallet. -/
def ServiceThread.creating? (th : ServiceThread) : Option CreateWalletDto :=
  match th.prog with
  | .call (.prisma (.walletFindFirst _ _)) _ | .call (.prisma (.walletCreate _ _)) _ =>
    th.origin.creates?
  | _ => none

/-- A `createWallet` call with this txId that finds no success row finds no
wallet made under the txId for anybody else, and no other call about to make one. -/
def CreatesOnce (txId : String) (s : State) (l : Step) : Prop := WalletRun s l ∧
  ∀ i a o b k, l = .run i (.ok a) →
    s.threads[i]? = some ⟨o, .call (.prisma (.walletRequestFindUnique txId)) k⟩ →
    o.creates? = some b → (∀ r, s.shared.db.walletRequests.find? txId = some r → r.status ≠ .success) →
    (∀ w ∈ s.shared.creations txId, w.IsFor b) ∧
    ∀ th ∈ s.threads, ∀ b', ServiceThread.creating? th = some b' → b'.txId = txId →
      b'.userId = b.userId ∧ b'.currency = b.currency

/-! ## The stages of a creation -/

inductive Creating where
  | asking | passed | done
  deriving DecidableEq

/-- Between the lookup and the insert there is one more lookup and nothing else. -/
def Origin.AllowsCreating (o : Origin) (p : Creating) : Op → Prop
  | .prisma (.walletFindFirst _ _) => True
  | .prisma (.walletCreate u c) => p = .passed ∧ ∃ b, o.creates? = some b ∧ u = b.userId ∧ c = b.currency
  | .prisma (.walletRequestFindUnique t) => p ≠ .passed ∧ ∀ b, o.creates? = some b → t = b.txId
  | _ => p ≠ .passed

def Creating.next (p : Creating) : (o : Op) → Except Err o.Res → Creating
  | .prisma (.walletRequestFindUnique _), .ok r =>
    if (r.filter fun r => r.status = .success).isSome then .done else .passed
  | .prisma (.walletFindFirst _ _), .ok none => p
  | .prisma (.walletFindFirst _ _), _ => .done
  | .prisma (.walletCreate _ _), _ => .done
  | _, _ => p

def creation (o : Origin) : Monitor Op Op.Res Err Creating :=
  ⟨o.AllowsCreating, fun p op r => if o.creates?.isSome then p.next op r else p⟩

def Decided (_ : Origin) (_ : Except Err Reply) (p : Creating) : Prop := p ≠ .passed

/-- A call that no creation depends on. -/
def Op.sparesCreation : Op → Bool
  | .prisma (.walletFindFirst _ _) | .prisma (.walletCreate _ _)
  | .prisma (.walletRequestFindUnique _) => false
  | _ => true

section
variable {o : Origin} {p : Creating} {α : Type} {b : CreateWalletDto}

theorem creation_still {op : Op} (hp : p ≠ .passed) (h : op.sparesCreation = true) :
    (creation o).allow p op ∧ ∀ r, (creation o).next p op r = p := by
  cases op with
  | prisma op =>
    cases op with
    | walletFindFirst | walletCreate | walletRequestFindUnique => cases h
    | _ => exact ⟨hp, fun r => ite_self _⟩
  | _ => exact ⟨hp, fun r => ite_self _⟩

/-- Whoever creates no wallet passes no lookup. -/
theorem spares_creation (ho : o.creates? = none) {c : Proc α}
    (hc : c.Only fun op => ∃ p : Local, o.Allows p op) :
    (creation o).wp c (fun _ q => q = .asking) .asking := by
  refine Monitor.wp_of_only _ (fun op hop => ⟨?_, fun r => ?_⟩) hc
  · obtain ⟨p, ha⟩ := hop
    cases op with
    | prisma op =>
      cases op with
      | walletFindFirst u c => trivial
      | walletRequestFindUnique t => exact ⟨by decide, fun b hb => by rw [ho] at hb; cases hb⟩
      | walletCreate u c =>
        have hr : o.records?.isSome = true := ha
        cases o with
        | delivery m => cases hr
        | http tok req => cases req with
          | createWallet b => cases ho
          | _ => cases hr
      | _ => exact (by decide : Creating.asking ≠ .passed)
    | _ => exact (by decide : Creating.asking ≠ .passed)
  · simp [creation, ho]

theorem recorded_creation (u cur t) (w : Wallet) :
    (creation o).wp (do
      let walletRequest ← Prisma.walletRequestCreate ⟨u, cur, t, .success⟩
      Redis.set (.walletRequest t) (.row walletRequest)
      sendToQueue .notifications (.notification ⟨u, "Wallet Created", .created cur, "wallet"⟩) none
      WalletsService.prependWallet u w
      pure w) (fun _ q => q ≠ .passed) .done := by
  have rest : (do
      let walletRequest ← Prisma.walletRequestCreate ⟨u, cur, t, .success⟩
      Redis.set (.walletRequest t) (.row walletRequest)
      sendToQueue .notifications (.notification ⟨u, "Wallet Created", .created cur, "wallet"⟩) none
      WalletsService.prependWallet u w
      pure w : Proc Wallet).Only fun op => op.sparesCreation = true := by
    refine .bind (.perform rfl) fun r => .bind (.perform rfl) fun _ =>
      .bind (.tryCatch (.bind (.perform rfl) fun _ => .perform rfl) fun _ => trivial) fun _ =>
      .bind (.bind (.perform rfl) fun cached => ?_) fun _ => trivial
    cases cached with
    | none => trivial
    | some _ => exact .perform rfl
  refine Monitor.wp_mono _ (Monitor.wp_of_only _ (fun _ => creation_still (by decide)) rest) ?_
  intro _ q hq
  rw [hq]
  decide

theorem createWallet_creation (hb : o.creates? = some b) :
    (creation o).wp (WalletsService.createWallet b.userId b.currency b.txId)
      (fun _ q => q ≠ .passed) .asking := by
  have moved (q : Creating) (op : Op) (r) : (creation o).next q op r = q.next op r := by
    simp [creation, hb]
  have asking : Creating.asking ≠ .passed := by decide
  have done : Creating.done ≠ .passed := by decide
  refine (Monitor.wp_bind _ _ _ _ _).mpr ⟨asking, fun r => ?_⟩
  rw [moved]
  cases r with
  | error e => exact asking
  | ok cached =>
    simp only [Monitor.wp]
    split
    · exact asking
    refine (Monitor.wp_bind _ _ _ _ _).mpr ⟨⟨asking, fun b' hb' => ?_⟩, fun r => ?_⟩
    · rw [hb] at hb'; cases hb'; rfl
    rw [moved]
    cases r with
    | error e => exact asking
    | ok existing =>
      simp only [Creating.next, Monitor.wp, WalletsService.createUnlessRecorded]
      cases existing.filter fun r => r.status = .success with
      | some r =>
        refine (Monitor.wp_bind _ _ _ _ _).mpr ⟨done, fun r => ?_⟩
        rw [moved]
        cases r <;> exact done
      | none =>
        refine (Monitor.wp_bind _ _ _ _ _).mpr ⟨trivial, fun r => ?_⟩
        rw [moved]
        cases r with
        | error e => exact done
        | ok found =>
          cases found with
          | some w => exact done
          | none =>
            refine (Monitor.wp_bind _ _ _ _ _).mpr ⟨⟨rfl, b, hb, rfl, rfl⟩, fun r => ?_⟩
            rw [moved]
            cases r with
            | error e => exact done
            | ok w => exact recorded_creation _ _ _ w

/-- A request for a new wallet decides on it before it ends. -/
theorem service_creation {C : State → Step → Prop} (hC : ∀ s l, C s l → WalletRun s l) :
    Machine.Obeys service creation Decided (fun _ => .asking) C := by
  intro s o sh hc ha
  have keeps := service_obeys hC s o sh hc ha
  cases ho : o.creates? with
  | none =>
    have only := Monitor.only_of_wp _ (fun p op ha => ⟨p, ha⟩ : ∀ p op, (protocol o).allow p op →
      ∃ p : Local, o.Allows p op) keeps
    exact Monitor.wp_mono _ (spares_creation ho only) fun _ q hq => by rw [hq]; exact Creating.noConfusion
  | some b =>
    cases o with
    | delivery m => cases ho
    | http tok req =>
      cases req with
      | createWallet b' =>
        cases ho
        refine wp_validateTokenUser (fun _ => Creating.noConfusion) fun _ => ?_
        exact wp_answer (createWallet_creation rfl) (fun _ _ hq => hq) fun _ _ hq => hq
      | _ => cases ho

end

/-! ## One creation at most -/

section
variable {sh sh' : Shared} {i : Nat} {o : Origin} {p p' : Local} {q : Creating} {txId : String}
  {b : CreateWalletDto} {w : Wallet}

theorem Shared.creations_note (e : Event) : (sh.note i o e).creations txId =
    sh.creations txId ++ (Entry.creation? txId ⟨i, o, e⟩).toList := by
  cases h : Entry.creation? txId ⟨i, o, e⟩ <;>
    simp [Shared.creations, Shared.note, List.filterMap_append, h]

/-- Only the insert of a wallet is a creation. -/
theorem Move.creations {op : Op} (h : Move i o sh p op sh' p')
    (hop : ∀ u c, op ≠ .prisma (.walletCreate u c)) : sh'.creations txId = sh.creations txId := by
  have noted {sh₁ : Shared} {e} (hj : sh₁.journal = sh.journal)
      (he : Entry.creation? txId ⟨i, o, e⟩ = none) :
      (sh₁.note i o e).creations txId = sh.creations txId := by
    rw [Shared.creations_note, he, Option.toList_none, List.append_nil, Shared.creations, hj]
    rfl
  have other (e : Event) (he : ∀ w, e ≠ .walletCreated w) : Entry.creation? txId ⟨i, o, e⟩ = none := by
    unfold Entry.creation?
    split
    · next w _ hw => exact absurd hw (he w)
    · rfl
  cases h with
  | look same _ _ => simp only [Shared.creations, same.journal]
  | stop same _ _ => simp only [Shared.creations, same.journal]
  | record | preLog | commit => exact noted rfl (other _ fun w => Event.noConfusion)
  | createWallet _ _ => exact absurd rfl (hop _ _)
  | _ => rfl

/-- A request that has passed its lookup passed it before, or has just made it. -/
theorem Creating.passes {op : Op} {c : Choice} {r} (ha : o.AllowsCreating q op)
    (he : exec c i o op sh = some (sh', r)) (h : (creation o).next q op r = .passed) :
    q = .passed ∨ ∃ b a, o.creates? = some b ∧ c = .ok a ∧
      op = .prisma (.walletRequestFindUnique b.txId) ∧
      ∀ x, sh.db.walletRequests.find? b.txId = some x → x.status ≠ .success := by
  cases ho : o.creates? with
  | none => exact .inl (by simpa [creation, ho] using h)
  | some b =>
    replace h : q.next op r = .passed := by simpa [creation, ho] using h
    cases op with
    | prisma op =>
      cases op with
      | walletFindFirst u cur =>
        cases r with
        | error e => cases h
        | ok w => cases w with
          | none => exact .inl h
          | some w => cases h
      | walletCreate u cur => cases h
      | walletRequestFindUnique t =>
        cases ha.2 b ho
        cases r with
        | error e => exact .inl h
        | ok row =>
          rcases exec_answer he with ⟨a, rfl, hrun⟩ | herr
          · cases hrun
            refine .inr ⟨b, a, rfl, rfl, rfl, fun x hx hs => ?_⟩
            rw [Creating.next, hx, Option.filter_some, if_pos (decide_eq_true hs)] at h
            cases h
          · cases herr
      | _ => exact .inl h
    | _ => exact .inl h

/-- At most one wallet was made under the txId, and all who may still make one
would make the same. -/
structure Unique (txId : String) (s : State) (g : Machine.Ghost Origin Creating) : Prop where
  once : (s.shared.creations txId).length ≤ 1
  listed : ∀ w ∈ s.shared.creations txId, w ∈ s.shared.versions
  made : ∀ i o b, Machine.Alive creation Decided s.threads g i o .passed → o.creates? = some b →
    b.txId = txId → ∀ w ∈ s.shared.creations txId, w.IsFor b
  same : ∀ i k o o' b b', Machine.Alive creation Decided s.threads g i o .passed →
    Machine.Alive creation Decided s.threads g k o' .passed → o.creates? = some b →
    o'.creates? = some b' → b.txId = txId → b'.txId = txId →
    b'.userId = b.userId ∧ b'.currency = b.currency

/-- A thread that has passed its lookup is about to look for a wallet or to insert one. -/
theorem creating_of_passed {s : State} {g : Machine.Ghost Origin Creating}
    (ha : Machine.Alive creation Decided s.threads g i o .passed) :
    ∃ th ∈ s.threads, ServiceThread.creating? th = o.creates? := by
  obtain ⟨prog, hi, -, hw⟩ := ha
  refine ⟨_, List.mem_of_getElem? hi, ?_⟩
  cases prog with
  | ret r => exact absurd rfl hw
  | call op k =>
    have allowed : o.AllowsCreating .passed op := hw.1
    cases op with
    | prisma op =>
      cases op with
      | walletFindFirst | walletCreate => rfl
      | walletRequestFindUnique t => exact absurd rfl allowed.1
      | _ => exact absurd rfl allowed
    | _ => exact absurd rfl allowed

abbrev Creators := Machine.Ghost Origin Creating

variable {s t : State} {l : Step} {g g' : Creators}

/-- Nothing is made, and nobody passes a lookup. -/
theorem Unique.keep (h : Unique txId s g)
    (hc : t.shared.creations txId = s.shared.creations txId)
    (hv : ∀ w ∈ s.shared.versions, w ∈ t.shared.versions)
    (hp : ∀ i o b, Machine.Alive creation Decided t.threads g' i o .passed →
      o.creates? = some b → b.txId = txId → Machine.Alive creation Decided s.threads g i o .passed) :
    Unique txId t g' where
  once := hc ▸ h.once
  listed w hw := hv w (h.listed w (hc ▸ hw))
  made i o b ha hb ht w hw := h.made i o b (hp i o b ha hb ht) hb ht w (hc ▸ hw)
  same i k o o' b b' ha ha' hb hb' hx hx' :=
    h.same i k o o' b b' (hp i o b ha hb hx) (hp k o' b' ha' hb' hx') hb hb' hx hx'

/-- Whoever has passed a lookup after a step had before, or was the one to move. -/
theorem passed_before (ht : Machine.Tracks .crashed creation Decided s.threads g)
    (hf : Machine.Follows service .crashed creation (fun _ => .asking) s g l t g')
    (ha : Machine.Alive creation Decided t.threads g' i o .passed) :
    Machine.Alive creation Decided s.threads g i o .passed ∨ ∃ c, l = .run i c := by
  rcases hf.alive_cases ht ha with ⟨ha, -⟩ | ⟨-, hp, -⟩ | ⟨c, -, -, -, -, -, hl, -⟩ | ⟨-, hp⟩
  · exact .inl ha
  · cases hp
  · exact .inr ⟨c, hl⟩
  · exact absurd rfl hp

/-- A request passes its lookup, and would make the wallet that the others make. -/
theorem Unique.pass {c : Choice} (h : Unique txId s g)
    (ht : Machine.Tracks .crashed creation Decided s.threads g)
    (hf : Machine.Follows service .crashed creation (fun _ => .asking) s g (.run i c) t g')
    (hc : t.shared.creations txId = s.shared.creations txId)
    (hv : ∀ w ∈ s.shared.versions, w ∈ t.shared.versions)
    (hi : ∀ o', Machine.Alive creation Decided t.threads g' i o' .passed → o'.creates? = some b)
    (made : ∀ w ∈ s.shared.creations txId, w.IsFor b)
    (same : ∀ th ∈ s.threads, ∀ b', ServiceThread.creating? th = some b' → b'.txId = txId →
      b'.userId = b.userId ∧ b'.currency = b.currency) : Unique txId t g' := by
  have known {k o'} {b'} (ha : Machine.Alive creation Decided t.threads g' k o' .passed)
      (hb : o'.creates? = some b') (hx : b'.txId = txId) :
      Machine.Alive creation Decided s.threads g k o' .passed ∨ b' = b := by
    rcases passed_before ht hf ha with ha | ⟨c, hl⟩
    · exact .inl ha
    · cases hl
      rw [hi o' ha] at hb
      exact .inr (Option.some.inj hb).symm
  have agrees {k o'} {b'} (ha : Machine.Alive creation Decided s.threads g k o' .passed)
      (hb : o'.creates? = some b') (hx : b'.txId = txId) :
      b'.userId = b.userId ∧ b'.currency = b.currency := by
    obtain ⟨th, hth, hcr⟩ := creating_of_passed ha
    exact same th hth b' (hcr.trans hb) hx
  refine ⟨hc ▸ h.once, fun w hw => hv w (h.listed w (hc ▸ hw)), fun k o' b' ha hb hx w hw => ?_,
    fun k m o₁ o₂ b₁ b₂ ha₁ ha₂ hb₁ hb₂ hx₁ hx₂ => ?_⟩
  · rcases known ha hb hx with ha | rfl
    · exact h.made k o' b' ha hb hx w (hc ▸ hw)
    · exact made w (hc ▸ hw)
  · rcases known ha₁ hb₁ hx₁ with ha₁ | rfl <;> rcases known ha₂ hb₂ hx₂ with ha₂ | rfl
    · exact h.same k m o₁ o₂ b₁ b₂ ha₁ ha₂ hb₁ hb₂ hx₁ hx₂
    · obtain ⟨hu, hcur⟩ := agrees ha₁ hb₁ hx₁
      exact ⟨hu.symm, hcur.symm⟩
    · exact agrees ha₂ hb₂ hx₂
    · exact ⟨rfl, rfl⟩

/-- The wallet of whoever may make one: it is the first under the txId. -/
theorem Unique.make {c : Choice} {tab : Table Wallet.id} (h : Unique txId s g)
    (ht : Machine.Tracks .crashed creation Decided s.threads g) (history : s.shared.History)
    (hf : Machine.Follows service .crashed creation (fun _ => .asking) s g (.run i c) t g')
    (ha : Machine.Alive creation Decided s.threads g i o .passed) (hb : o.creates? = some b)
    (hi : ∀ o', ¬ Machine.Alive creation Decided t.threads g' i o' .passed)
    (fresh : ∀ v ∈ s.shared.db.wallets.rows, ¬ (v.userId = b.userId ∧ v.currency = b.currency))
    (hw : w.IsFor b) (hs : t.shared = (s.shared.addWallet w tab).note i o (.walletCreated w)) :
    Unique txId t g' := by
  have before {k o'} (ha : Machine.Alive creation Decided t.threads g' k o' .passed) :
      Machine.Alive creation Decided s.threads g k o' .passed := by
    rcases passed_before ht hf ha with ha | ⟨c, hl⟩
    · exact ha
    · cases hl; exact absurd ha (hi o')
  have noted : t.shared.creations txId = s.shared.creations txId ++
      (Entry.creation? txId ⟨i, o, .walletCreated w⟩).toList := by
    rw [hs, Shared.creations_note]
    rfl
  have hv : ∀ v ∈ s.shared.versions, v ∈ t.shared.versions := by
    rw [hs]
    exact fun v hv => List.mem_append_left _ hv
  have mine : Entry.creation? txId ⟨i, o, .walletCreated w⟩ = if b.txId = txId then some w else none := by
    simp only [Entry.creation?, hb]
  rw [mine] at noted
  by_cases hx : b.txId = txId
  · rw [if_pos hx, Option.toList_some] at noted
    have none_before : s.shared.creations txId = [] := by
      rw [List.eq_nil_iff_forall_not_mem]
      intro v hvm
      obtain ⟨u, hu, same, -⟩ := history.version v (h.listed v hvm)
      have is := h.made i o b ha hb hx v hvm
      exact fresh u (Table.find?_eq_some.mp hu).1
        ⟨same.userId ▸ is.1, same.currency ▸ is.2⟩
    rw [none_before, List.nil_append] at noted
    have only {v} (hv : v ∈ t.shared.creations txId) : v = w := by
      rw [noted] at hv
      exact List.mem_singleton.mp hv
    refine ⟨by rw [noted]; exact le_rfl, fun v hv => ?_, fun k o' b' hk hb' hx' v hv => ?_,
      fun k m o₁ o₂ b₁ b₂ h₁ h₂ => h.same k m o₁ o₂ b₁ b₂ (before h₁) (before h₂)⟩
    · rw [only hv, hs]
      exact List.mem_append_right _ (.head _)
    · rw [only hv]
      obtain ⟨hu, hcur⟩ := h.same i k o o' b b' ha (before hk) hb hb' hx hx'
      exact ⟨hw.1.trans hu.symm, hw.2.trans hcur.symm⟩
  · rw [if_neg hx, Option.toList_none, List.append_nil] at noted
    exact h.keep noted hv fun k o' _ hk _ _ => before hk

theorem Unique.step (hc : CreatesOnce txId s l) (known : s.Known)
    (ht : Machine.Tracks .crashed creation Decided s.threads g) (h : Unique txId s g)
    (hf : Machine.Follows service .crashed creation (fun _ => .asking) s g l t g') :
    Unique txId t g' := by
  obtain ⟨gl, htl, sound⟩ := known
  have same (hb : s.shared.SameBooks t.shared) (hn : ∀ i c, l ≠ .run i c) : Unique txId t g' := by
    refine h.keep (by simp only [Shared.creations, hb.journal]) (fun w hw => hb.versions ▸ hw)
      fun i o _ ha _ _ => ?_
    exact (passed_before ht hf ha).resolve_right (not_exists.mpr (hn i))
  cases l with
  | start o =>
    cases hf with
    | start ha _ => exact same (Origin.accept_same ha) fun _ _ hl => by cases hl
  | env e =>
    cases hf with
    | env he => exact same (EnvStep.run_same he) fun _ _ hl => by cases hl
  | kill i =>
    refine h.keep ?_ ?_ fun k o _ ha _ _ =>
      (passed_before ht hf ha).resolve_right (not_exists.mpr fun c hl => by cases hl)
    · cases hf with
      | kill _ _ => rfl
    · cases hf with
      | kill _ _ => exact fun w hw => hw
  | run i c =>
    obtain ⟨o, op, k, r, p, hi, alive, allowed, he, alive'⟩ := hf.alive_moved ht
    obtain ⟨pl, hgl, hal, -⟩ := htl.called hi
    have move := exec_move hal he
    -- who moves has passed its lookup after the step only if its next state says so
    have mover {o'} (ha : Machine.Alive creation Decided t.threads g' i o' .passed) :
        o' = o ∧ (creation o).next p op r = .passed := by
      obtain ⟨rfl, hp⟩ := ha.unique alive'
      exact ⟨rfl, hp.symm⟩
    by_cases hop : ∃ u cur, op = .prisma (.walletCreate u cur)
    · obtain ⟨u, cur, rfl⟩ := hop
      obtain ⟨rfl, b, hb, rfl, rfl⟩ := allowed
      have not_mover (o') : ¬ Machine.Alive creation Decided t.threads g' i o' .passed := by
        intro ha
        have hn := (mover ha).2
        simp [creation, hb, Creating.next] at hn
      rcases exec_walletCreate he with ⟨hsame, -⟩ | ⟨fresh, w, tab, hw, -, hs, -⟩
      · refine h.keep (by rw [hsame]) (by rw [hsame]; exact fun w hw => hw) fun k o' _ ha _ _ => ?_
        refine (passed_before ht hf ha).resolve_right (not_exists.mpr fun c' hl => ?_)
        cases hl
        exact not_mover o' ha
      · exact h.make ht sound.history hf alive hb not_mover fresh (by rw [hw]; exact ⟨rfl, rfl⟩) hs
    · have hcr : t.shared.creations txId = s.shared.creations txId :=
        move.creations fun u cur he => hop ⟨u, cur, he⟩
      by_cases hlook : ∃ b a, o.creates? = some b ∧ c = .ok a ∧ b.txId = txId ∧
          op = .prisma (.walletRequestFindUnique b.txId) ∧
          ∀ x, s.shared.db.walletRequests.find? b.txId = some x → x.status ≠ .success
      · obtain ⟨b, a, hb, rfl, hx, rfl, hrow⟩ := hlook
        subst hx
        obtain ⟨made, others⟩ := hc.2 i a o b k rfl hi hb hrow
        exact h.pass ht hf hcr move.versions (fun o' ha => (mover ha).1 ▸ hb) made others
      · refine h.keep hcr move.versions fun k o' b' ha hb' hx => ?_
        rcases passed_before ht hf ha with ha | ⟨c', hl⟩
        · exact ha
        · cases hl
          obtain ⟨rfl, hn⟩ := mover ha
          rcases Creating.passes allowed he hn with rfl | ⟨b, a, hb, hca, hop', hrow⟩
          · exact alive
          · rw [hb'] at hb
            cases hb
            exact absurd ⟨b', a, hb', hca, hx, hop', hrow⟩ hlook

/-- The `createWallet` calls with one txId make one wallet at most, in every run
in which whoever passes the lookup finds nobody making another wallet. -/
theorem one_wallet_per_txId (txId : String) (hq : Quiet s) (h : Reach (CreatesOnce txId) s t) :
    (t.shared.creations txId).length ≤ 1 := by
  have nobody (i o) : ¬ Machine.Alive creation Decided s.threads (fun _ => none) i o .passed := by
    rintro ⟨q, -, hg, -⟩
    cases hg
  have start : Unique txId s fun _ => none := by
    have hnone : s.shared.creations txId = [] := by simp [Shared.creations, hq.journal]
    refine ⟨by simp [hnone], fun w hw => ?_, fun i o b ha => absurd ha (nobody i o),
      fun i k o o' b b' ha => absurd ha (nobody i o)⟩
    rw [hnone] at hw
    cases hw
  obtain ⟨g, -, unique⟩ := Machine.Tracks.invariant (service_creation fun _ _ hc => hc.1.1)
    (.of_nil hq.threads) start
    (fun u g l v g' hc hu hI hf => Unique.step hc.1 hc.2 hu hI hf)
    (Reach.knowing_sound (fun _ _ hc => hc.1) hq h)
  exact unique.once

end

/-- No call fails, and whoever makes the lookup is the only one under way. -/
def looksAlone (txId : String) (s : State) (l : Step) : Bool :=
  l.ofWallets && match l with
    | .run i _ => s.threads[i]?.all fun th => match th.prog with
      | .call (.prisma (.walletRequestFindUnique _)) _ => (s.shared.creations txId).isEmpty &&
        s.threads.all fun th => (ServiceThread.creating? th).isNone
      | _ => true
    | _ => true

theorem createsOnce_of_looksAlone {txId : String} {s : State} {l : Step}
    (h : looksAlone txId s l = true) : CreatesOnce txId s l := by
  obtain ⟨hw, h⟩ := (Bool.and_eq_true _ _).mp h
  refine ⟨hw, fun i a o b k hl hi _ _ => ?_⟩
  subst hl
  simp only [hi, Option.all_some, Bool.and_eq_true, List.isEmpty_iff, List.all_eq_true,
    Option.isNone_iff_eq_none] at h
  refine ⟨fun w hw => ?_, fun th hth b' hb' => ?_⟩
  · rw [h.1] at hw; cases hw
  · rw [h.2 th hth] at hb'; cases hb'

/-- A second call with the txId comes when the first is over. -/
def createdTwice : List Step :=
  .start (.http 1 (.createWallet ⟨1, "USD", "w"⟩)) :: calls 0 9 ++
  .start (.http 1 (.createWallet ⟨1, "EUR", "w"⟩)) :: calls 1 1

theorem one_wallet_per_txId_twice : ∃ t, Reach (CreatesOnce "w") State.empty t ∧
    t.threads.all (·.prog.finished) = true ∧ t.shared.creations "w" ≠ [] ∧
    (t.shared.creations "w").length ≤ 1 := by
  have h : (service.runsIf .crashed (looksAlone "w") createdTwice State.empty).any (fun t =>
      t.threads.all (·.prog.finished) ∧ t.shared.creations "w" ≠ []) = true := by decide +kernel
  obtain ⟨t, ht, hp⟩ := Option.any_eq_true _ _ |>.mp h
  obtain ⟨hfin, hmade⟩ := of_decide_eq_true hp
  have reach := Machine.reach_of_runsIf (fun _ _ => createsOnce_of_looksAlone) ht
  exact ⟨t, reach, hfin, hmade, one_wallet_per_txId "w" State.empty_quiet reach⟩

/-- Two calls pass the lookup before either inserts: the txId gives two wallets. -/
theorem one_txId_two_wallets : ∃ t, Reach WalletRun State.empty t ∧
    (t.shared.creations "w").length = 2 := by
  have h : ((runSteps (.start (.http 1 (.createWallet ⟨1, "USD", "w"⟩)) ::
      .start (.http 1 (.createWallet ⟨1, "EUR", "w"⟩)) :: calls 0 3 ++ calls 1 3 ++ calls 0 1 ++ calls 1 1)
      State.empty).any fun t => (t.shared.creations "w").length = 2) = true := by decide +kernel
  obtain ⟨t, ht, hp⟩ := runSteps_any h
  exact ⟨t, reach_of_runSteps rfl ht, of_decide_eq_true hp⟩

end Pactic
