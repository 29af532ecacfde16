import Pactic.Protocol.Scope
import Pactic.Wallets.Deposits
import Pactic.Wallets.Lists

/-! # The cached transactions

The processors put a row in front of a cached list of transactions that they
have found, and nothing else writes one. So a list in the cache is what was
there at the beginning with rows in front of it, and a list that is not there
never will be. -/
namespace Pactic
open Resumption

/-- The lists of transactions a thread has found, by their users. -/
abbrev Finds := List (Int × List (Option Transaction))

/-- A list that is written is one that was found, with a row in front of it. -/
def Finds.Extends (p : Finds) : Op → Prop
  | .redis (.set (.userTransactions u) l) => ∃ row found, (u, found) ∈ p ∧ l = row :: found
  | _ => True

def Finds.next (p : Finds) : (op : Op) → Except Err op.Res → Finds
  | .redis (.get (.userTransactions u)), .ok (some l) => (u, l) :: p
  | _, _ => p

def finding (_ : Origin) : Monitor Op Op.Res Err Finds := ⟨Finds.Extends, Finds.next⟩

/-- Everything but a list of transactions. -/
def unlisted : Scope where
  logins := True
  jobs _ := True
  users _ := True
  caches k := ∀ u, k ≠ .userTransactions u

section
variable {α : Type} {o : Origin} {m : Message}

theorem Finds.extends_of_scope {a : Scope} (ha : ∀ u, ¬ a.caches (.userTransactions u)) {op : Op}
    {p : Finds} (h : op.KeepsTo a) : p.Extends op := by
  cases op with
  | redis op =>
    cases op with
    | set k v =>
      cases k with
      | userTransactions u => exact absurd h (ha u)
      | _ => trivial
    | _ => trivial
  | _ => trivial

theorem Scoped.finding_of {a : Scope} (ha : ∀ u, ¬ a.caches (.userTransactions u)) {c : Proc α}
    (h : Scoped a c) : (finding o).Maintains (fun _ => True) c :=
  .of_only (fun _ _ _ hop => ⟨Finds.extends_of_scope ha hop, fun _ => trivial⟩) h

theorem Scoped.finding {c : Proc α} (h : Scoped unlisted c) :
    (Pactic.finding o).Maintains (fun _ => True) c :=
  Scoped.finding_of (a := unlisted) (fun u hu => hu u rfl) h

theorem prependTransaction_finding (u : Int) (row : Option Transaction) :
    (finding o).Maintains (fun _ => True) (prependTransaction u row) := by
  intro p _
  refine (Monitor.wp_perform_bind _ _ _ _ _).mpr ⟨trivial, fun cached => ?_, fun _ => trivial⟩
  cases cached with
  | none => trivial
  | some l => exact ⟨⟨row, l, .head _, rfl⟩, fun _ => trivial⟩

theorem fund_finding (d : FundWalletDto) : (finding o).Maintains (fun _ => True) (fund d) := by
  refine .bind (Scoped.finding (.perform trivial)) fun _ =>
    .bind (Scoped.finding (checkWallet_only _ _ _ _)) fun _ =>
    .bind (Scoped.finding (transaction_scoped (fundingTransaction_calls d))) fun _ =>
    .bind (Scoped.finding (.perform ?_)) fun _ => .bind (prependTransaction_finding _ _) fun _ =>
    Scoped.finding (notify_scoped trivial)
  intro u he
  cases he

theorem withdraw_finding (d : WithdrawWalletDto) :
    (finding o).Maintains (fun _ => True) (withdraw d) := by
  refine .bind (Scoped.finding (transaction_scoped (withdrawalTransaction_calls d))) fun _ =>
    .bind (Scoped.finding (.perform ?_)) fun _ => .bind (Scoped.finding (.perform ?_)) fun _ =>
    .bind (prependTransaction_finding _ _) fun _ => Scoped.finding (notify_scoped trivial)
  · intro u he
    cases he
  · intro u he
    cases he

theorem transfer_finding (d : TransferWalletDto) :
    (finding o).Maintains (fun _ => True) (transfer d) := by
  have notFound (u v : Int) : CacheKey.userWallets v ≠ .userTransactions u := by
    intro he
    cases he
  refine .bind (Scoped.finding (transaction_scoped (transferTransaction_calls d))) fun _ =>
    .bind (Scoped.finding (.perform ?_)) fun _ =>
    .bind (Scoped.finding (promiseAll_only (.perform trivial) (.perform trivial))) fun _ =>
    .bind (prependTransaction_finding _ _) fun _ => .bind (prependTransaction_finding _ _) fun _ =>
    .bind (Scoped.finding (promiseAll_only (.perform fun u => notFound u _)
      (.perform fun u => notFound u _))) fun _ =>
    .bind (Scoped.finding (promiseAll_only (notify_scoped trivial) (notify_scoped trivial)))
      fun _ => .ret _
  intro u he
  cases he

theorem walletRequest_unlisted (t : String) : unlisted.caches (.walletRequest t) := by
  intro u he
  cases he

theorem guarded_finding {c : Proc Unit} {u : Int} {cur t : String}
    (h : (finding o).Maintains (fun _ => True) c) : (finding o).Maintains (fun _ => True) (do
      if ← alreadyProcessed t then pure ()
      else if ← preLog u cur t then c
      else pure ()) := by
  refine .bind (Scoped.finding (alreadyProcessed_scoped (walletRequest_unlisted t))) fun skip => ?_
  cases skip with
  | true => exact .ret _
  | false =>
    refine .bind (Scoped.finding preLog_scoped) fun mine => ?_
    cases mine with
    | true => exact h
    | false => exact .ret _

theorem Job.handler_finding (j : Job) : (finding o).Maintains (fun _ => True) j.handler := by
  have failed (t : String) : (finding o).Maintains (fun _ => True) (markFailed t) :=
    Scoped.finding (markFailed_scoped (walletRequest_unlisted t))
  cases j with
  | funding d =>
    exact .tryCatch (guarded_finding (fund_finding d)) fun _ => .bind (failed _) fun _ => .ret _
  | withdrawal d => exact .tryCatch (guarded_finding (withdraw_finding d)) fun _ => failed _
  | transfer d =>
    exact .tryCatch (guarded_finding (transfer_finding d)) fun _ => .bind (failed _) fun _ => .ret _

theorem deliver_finding {c : Proc Unit} (h : deliver m = some c) :
    (finding o).Maintains (fun _ => True) c := by
  have handled : ∃ handler, c = consume m.queue handler m ∧
      (finding o).Maintains (fun _ => True) handler := by
    cases hd : m.data with
    | job j =>
      obtain ⟨handler, rfl, -, own⟩ := deliver_eq_consume h
      exact ⟨handler, rfl, (own j hd).2 ▸ Job.handler_finding j⟩
    | notification n =>
      obtain ⟨handler, rfl, hh⟩ := deliver_scoped h
      rw [hd] at hh
      exact ⟨handler, rfl, hh.finding_of fun u hu => hu⟩
    | login l =>
      obtain ⟨handler, rfl, hh⟩ := deliver_scoped h
      rw [hd] at hh
      exact ⟨handler, rfl, hh.finding_of fun u hu => hu⟩
  obtain ⟨handler, rfl, hh⟩ := handled
  have again (q : Queue) : (finding o).Maintains (fun _ => True) (do
      sendToQueue q m.data (some (m.attempts + 1))
      call (.rabbit (.ack m))) := by
    refine .bind (.tryCatch (.bind ?_ fun _ => ?_) fun _ => .ret _) fun _ => ?_
    · exact fun _ _ => ⟨trivial, fun _ => trivial⟩
    · exact fun _ _ => ⟨trivial, fun _ => trivial⟩
    · exact fun _ _ => ⟨trivial, fun _ => trivial⟩
  refine .tryCatch hh fun _ => ?_
  split
  · exact again _
  · exact again _

theorem service_finding (C : State → Step → Prop) :
    Machine.Obeys service finding (fun _ _ _ => True) (fun _ => []) C := by
  intro s o sh _ ha
  cases o with
  | http tok r => exact (Request.program_scoped tok r).finding_of (fun u hu => hu) [] trivial
  | delivery m =>
    obtain ⟨c, hc, program⟩ := Origin.program_delivery (Origin.accept_delivery ha).2.1
    have whole : (finding (.delivery m)).Maintains (fun _ => True) (do c; pure Reply.done) :=
      .bind (deliver_finding hc) fun _ => .ret _
    show (finding _).wp (Origin.delivery m).program _ _
    rw [program]
    exact whole [] trivial

end

/-! ## Every list comes from the beginning -/

/-- The list of this user was in the cache at the beginning, up to rows in front. -/
def Shared.Began (sh : Shared) (u : Int) (l : List (Option Transaction)) : Prop :=
  ∃ l₀, sh.redis (.userTransactions u) = some l₀ ∧ l₀ <:+ l

/-- The lists in the cache and those that threads have found. -/
structure AllBegan (first : Shared) (sh : Shared) (g : Machine.Ghost Origin Finds) : Prop where
  cached : ∀ u l, sh.redis (.userTransactions u) = some l → first.Began u l
  found : ∀ i o p, g i = some (o, p) → ∀ u l, (u, l) ∈ p → first.Began u l

section
variable {first sh sh' : Shared} {g : Machine.Ghost Origin Finds} {i : Nat} {o : Origin} {p p' : Finds}

theorem AllBegan.update (h : AllBegan first sh g)
    (cached : ∀ u l, sh'.redis (.userTransactions u) = some l → first.Began u l)
    (found : ∀ u l, (u, l) ∈ p' → first.Began u l) :
    AllBegan first sh' (Function.update g i (some (o, p'))) := by
  refine ⟨cached, fun k o' q hk => ?_⟩
  by_cases hki : k = i
  · subst hki
    rw [Function.update_self] at hk
    cases hk
    exact found
  · rw [Function.update_of_ne hki] at hk
    exact h.found k o' q hk

theorem AllBegan.call {c : Choice} {op : Op} {r} (h : AllBegan first sh g) (hg : g i = some (o, p))
    (ha : p.Extends op) (he : exec c i o op sh = some (sh', r)) :
    AllBegan first sh' (Function.update g i (some (o, p.next op r))) := by
  have mine := h.found i o p hg
  refine h.update (fun u l hl => ?_) fun u l hl => ?_
  · rcases exec_redis he with same | ⟨op', rfl, -, hr⟩
    · exact h.cached u l (same ▸ hl)
    rw [hr] at hl
    cases op' with
    | get k => exact h.cached u l hl
    | set k v =>
      by_cases hk : CacheKey.userTransactions u = k
      · subst hk
        obtain ⟨row, found, hf, rfl⟩ := ha
        cases (Function.update_self _ _ _).symm.trans hl
        obtain ⟨l₀, h₀, suffix⟩ := mine u found hf
        exact ⟨l₀, h₀, suffix.trans (List.suffix_cons _ _)⟩
      · exact h.cached u l ((Function.update_of_ne hk _ _).symm.trans hl)
    | del k =>
      by_cases hk : CacheKey.userTransactions u = k
      · subst hk
        cases (Function.update_self _ _ _).symm.trans hl
      · exact h.cached u l ((Function.update_of_ne hk _ _).symm.trans hl)
  · unfold Finds.next at hl
    split at hl
    · next u' l' =>
      rcases List.mem_cons.mp hl with new | hl
      · cases new
        exact h.cached u l (exec_get_ok he).2.symm
      · exact mine u l hl
    · exact mine u l hl

end

theorem allBegan_stable (first : Shared) (C : State → Step → Prop)
    (K : Shared → Machine.Ghost Origin Finds → Prop) :
    Machine.Stable service finding (fun _ => []) C K (AllBegan first) where
  start _ _ _ _ _ _ _ _ h _ ha :=
    h.update (fun u l hl => h.cached u l (accept_redis ha ▸ hl)) fun u l hl => by cases hl
  run _ _ _ _ _ _ _ _ _ _ _ _ _ h hg ha he := h.call hg ha he
  env _ _ _ _ _ _ h he := ⟨fun u l hl => h.cached u l (env_redis he hl), h.found⟩
  kill _ _ _ _ _ h := ⟨h.cached, h.found⟩

/-- In every run of the service a cached list of transactions is the one of the
beginning with rows in front of it. Where none was cached none ever is: no
endpoint fills these entries. -/
theorem cached_transactions_were_there {s t : State} (hs : s.threads = [])
    (h : Reach (fun _ _ => True) s t) {u : Int} {l : List (Option Transaction)}
    (hl : t.shared.redis (.userTransactions u) = some l) :
    ∃ l₀, s.shared.redis (.userTransactions u) = some l₀ ∧ l₀ <:+ l := by
  have base : AllBegan s.shared s.shared fun _ => none :=
    ⟨fun u l hl => ⟨l, hl, List.suffix_rfl⟩, fun _ _ _ hg => by cases hg⟩
  obtain ⟨g, -, began⟩ := (allBegan_stable s.shared (fun _ _ => True) _).invariant
    (service_finding fun _ _ => True) (.of_nil hs) base h
  exact began.cached u l hl

/-- Two deposits wait, and the list of their user is cached. -/
def State.listed : State :=
  { State.twoDeposits with
    shared.redis := Function.update State.empty.shared.redis (.userTransactions 1) (some []) }

/-- The row of the deposit comes in front. -/
theorem cached_transactions_were_there_deposit : ∃ (t : State) (row : Option Transaction),
    runSteps (depositDelivered deposit₁ none 0 :: calls 0 14) State.listed = some t ∧
    t.shared.redis (.userTransactions 1) = some [row] ∧
    ∃ l₀, State.listed.shared.redis (.userTransactions 1) = some l₀ ∧ l₀ <:+ [row] := by
  have h : (runSteps (depositDelivered deposit₁ none 0 :: calls 0 14) State.listed).any (fun t =>
      (t.shared.redis (.userTransactions 1)).any fun l => l.length == 1) = true := by decide +kernel
  obtain ⟨t, ht, cached⟩ := runSteps_any h
  obtain ⟨l, hl, one⟩ := (Option.any_eq_true _ _).mp cached
  obtain ⟨row, rfl⟩ := List.length_eq_one_iff.mp (eq_of_beq one)
  have reach : Reach (fun _ _ => True) State.listed t :=
    Machine.reach_of_runs (fun _ _ _ => trivial) ht
  exact ⟨t, row, ht, hl, cached_transactions_were_there rfl reach hl⟩

end Pactic
