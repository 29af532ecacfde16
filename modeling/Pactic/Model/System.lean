import Pactic.Lib.Machine
import Pactic.Model.Jobs
import Pactic.Model.Users

/-! # The running service

The machine whose threads are the requests in progress and the consumer
callbacks in progress. A schedule decides when requests arrive, which ready
message is delivered next, which thread moves, which calls fail, when cache
entries expire, which messages the broker delivers once more and which threads
die. Killing every thread and requeueing what is not acknowledged is a crash of
the process. -/
namespace Pactic
open Resumption

/-- The body validation. Whoever signs up or logs in has no token yet. -/
def Request.Valid : Request → Prop
  | createWallet b => b.Valid
  | fundWallet b => b.Valid
  | withdrawFromWallet b => b.Valid
  | transferFunds b => b.Valid
  | signup b => b.Valid
  | login b _ _ => b.Valid
  | _ => True

instance : (r : Request) → Decidable r.Valid
  | .createWallet b => inferInstanceAs (Decidable b.Valid)
  | .fundWallet b => inferInstanceAs (Decidable b.Valid)
  | .withdrawFromWallet b => inferInstanceAs (Decidable b.Valid)
  | .transferFunds b => inferInstanceAs (Decidable b.Valid)
  | .signup b => inferInstanceAs (Decidable b.Valid)
  | .login b _ _ => inferInstanceAs (Decidable b.Valid)
  | .getUserWallets _ => isTrue trivial
  | .getProfile _ => isTrue trivial
  | .updateProfile _ _ => isTrue trivial
  | .deleteUser _ => isTrue trivial

def Request.program (tokenUserId : Int) : Request → Proc Reply
  | createWallet b => WalletsController.createWallet b tokenUserId
  | fundWallet b => WalletsController.fundWallet b tokenUserId
  | getUserWallets u => WalletsController.getUserWallets u tokenUserId
  | withdrawFromWallet b => WalletsController.withdrawFromWallet b tokenUserId
  | transferFunds b => WalletsController.transferFunds b tokenUserId
  | signup b => UsersController.signup b
  | login b ip ua => UsersController.login b ip ua
  | getProfile u => UsersController.getProfile u tokenUserId
  | updateProfile body client => UsersController.updateProfile client body tokenUserId
  | deleteUser u => UsersController.deleteUser u tokenUserId

variable [Arithmetic]

/-- The program of a thread. A message no consumer takes is never delivered. -/
def Origin.program : Origin → Proc Reply
  | http tokenUserId r => r.program tokenUserId
  | delivery m => do
    (deliver m).getD (pure ())
    pure .done

/-- A valid request starts; a ready message with a consumer is delivered. -/
def Origin.accept : Origin → Shared → Option Shared
  | http _ r, sh => if r.Valid then some sh else none
  | delivery m, sh =>
    if m ∈ sh.broker.ready ∧ (deliver m).isSome then
      some { sh with broker := { sh.broker with
        ready := sh.broker.ready.erase m, unacked := sh.broker.unacked ++ [m] } }
    else none

theorem Origin.accept_http {tokenUserId : Int} {r : Request} {sh sh' : Shared}
    (h : (http tokenUserId r).accept sh = some sh') : r.Valid ∧ sh' = sh := by
  simp only [accept] at h
  split at h
  · next valid => exact ⟨valid, (Option.some.inj h).symm⟩
  · cases h

theorem Origin.accept_delivery {m : Message} {sh sh' : Shared}
    (h : (delivery m).accept sh = some sh') : m ∈ sh.broker.ready ∧ (deliver m).isSome ∧
      sh' = { sh with broker := { sh.broker with
        ready := sh.broker.ready.erase m, unacked := sh.broker.unacked ++ [m] } } := by
  simp only [accept] at h
  split at h
  · next ok => exact ⟨ok.1, ok.2, (Option.some.inj h).symm⟩
  · cases h

/-- What runs a message that is delivered. -/
theorem Origin.program_delivery {m : Message} (h : (deliver m).isSome) : ∃ c, deliver m = some c ∧
    (delivery m).program = (do c; pure .done) := by
  obtain ⟨c, hc⟩ := Option.isSome_iff_exists.mp h
  refine ⟨c, hc, ?_⟩
  simp only [program, hc, Option.getD_some]

/-- `requeue` gives an unacknowledged message back to its queue, as the broker
does when the connection ends; `redeliver` delivers any message ever sent once
more; `tick` advances the clock. -/
inductive EnvStep where
  | expire (k : CacheKey)
  | requeue (m : Message)
  | redeliver (m : Message)
  | tick

def EnvStep.run : EnvStep → Shared → Option Shared
  | expire k, sh => some { sh with redis := Function.update sh.redis k none }
  | requeue m, sh =>
    if m ∈ sh.broker.unacked then
      some { sh with broker := { sh.broker with
        ready := sh.broker.ready ++ [m], unacked := sh.broker.unacked.erase m } }
    else none
  | redeliver m, sh =>
    if m ∈ sh.broker.sent then
      some { sh with broker := { sh.broker with ready := sh.broker.ready ++ [m] } }
    else none
  | tick, sh => some { sh with db.now := sh.db.now + 1 }

def service : Machine Op Op.Res Err Reply Origin Shared Choice EnvStep where
  program := Origin.program
  accept := Origin.accept
  exec := exec
  env := EnvStep.run
  abort := fun i sh => sh.rollback i

abbrev ServiceThread := Thread Op Op.Res Err Reply Origin
abbrev State := Config Op Op.Res Err Reply Origin Shared
abbrev Step := Label Origin Choice EnvStep

def step (s : State) (l : Step) : Option State := service.step .crashed s l

def runSteps (ls : List Step) (s : State) : Option State := service.runs .crashed ls s

/-- States reached by steps that meet `C`. -/
abbrev Reach (C : State → Step → Prop) (s t : State) : Prop := service.Reach .crashed C s t

/-- The endpoints of the users controller start no thread. -/
def Request.ofWallets : Request → Bool
  | createWallet _ | fundWallet _ | getUserWallets _ | withdrawFromWallet _ | transferFunds _ => true
  | _ => false

def Step.ofWallets : Step → Bool
  | .start (.http _ r) => r.ofWallets
  | _ => true

/-- Runs of the wallet endpoints and of the processors. -/
def WalletRun (_ : State) (l : Step) : Prop := l.ofWallets = true

theorem reach_of_runSteps {ls : List Step} {s t : State} (hw : ls.all Step.ofWallets = true)
    (h : runSteps ls s = some t) : Reach WalletRun s t :=
  Machine.reach_of_runs (fun _ hl _ => List.all_eq_true.mp hw _ hl) h

/-- Nothing is running and nothing has been noted yet: a transaction that
begins now can read the present rows only. The database, the cache and the
queues hold whatever they hold. -/
structure Quiet (s : State) : Prop where
  threads : s.threads = []
  txs : ∀ i, s.shared.txs i = none
  locks : ∀ id, s.shared.locks id = none
  versions : s.shared.versions = s.shared.db.wallets.rows
  journal : s.shared.journal = []

/-- A new database, with nothing in the cache and the queues. -/
def State.empty : State where
  shared := {
    db := ⟨∅, ∅, ∅, ∅, [], [], 1, 1, 0⟩, versions := [], txs := fun _ => none
    locks := fun _ => none, redis := fun _ => none, broker := ⟨[], [], [], 0⟩, journal := [] }
  threads := []

/-- `n` calls of thread `i`, each answered. -/
def calls (i n : Nat) : List Step := List.replicate n (.run i (.ok {}))

theorem runSteps_any {ls : List Step} {s : State} {P : State → Bool}
    (h : (runSteps ls s).any P = true) : ∃ t, runSteps ls s = some t ∧ P t = true := by
  simpa [Option.any_eq_true] using h

theorem runSteps_step {ls : List Step} {s : State} {l : Step} {P : State → State → Bool}
    (h : ((runSteps ls s).bind fun t => (step t l).map (P t)) = some true) :
    ∃ t u, runSteps ls s = some t ∧ step t l = some u ∧ P t u = true := by
  simp only [Option.bind_eq_some_iff, Option.map_eq_some_iff] at h
  obtain ⟨t, ht, u, hu, hp⟩ := h
  exact ⟨t, u, ht, hu, hp⟩

omit [Arithmetic] in
theorem State.empty_quiet : Quiet State.empty := ⟨rfl, fun _ => rfl, fun _ => rfl, rfl, rfl⟩

end Pactic
