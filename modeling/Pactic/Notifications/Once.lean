import Pactic.Protocol.Messages
import Pactic.Wallets.Delivery

/-! # Notifications and login logs

Their handlers keep no key of the message they insert a row for, and a handler
that returns is not acknowledged. So a message leaves a second row as soon as
the broker gives it back after the first. -/
namespace Pactic
open Resumption

/-! ## The rows of a message -/

def Op.inserts : Op → Bool
  | .prisma (.notificationCreate _) | .prisma (.loginLogCreate _) => true
  | _ => false

def Choice.lands : Choice → Bool
  | .fail => false
  | _ => true

/-- The message whose delivery is about to insert its row. -/
def ServiceThread.inserting? : ServiceThread → Option Message
  | ⟨.delivery m, .call op _⟩ => if op.inserts then some m else none
  | _ => none

/-- The message for which this step adds a row. -/
def State.records? (s : State) : Step → Option Message
  | .run i c => if c.lands then s.threads[i]?.bind ServiceThread.inserting? else none
  | _ => none

/-- How many rows of message `m` a step adds. -/
def State.rowsOf (m : Message) (s : State) (l : Step) : Nat := if s.records? l = some m then 1 else 0

def Db.rowCount (db : Db) : Nat := db.notifications.length + db.loginLogs.length

section
variable {sh sh' : Shared} {i : Nat} {o : Origin}

theorem PrismaOp.run_rowCount {op : PrismaOp} {a r} (hu : ∀ id d, op ≠ .userUpdate id d)
    (h : op.run a i o sh = some (sh', r)) :
    sh'.db.rowCount = sh.db.rowCount + if (Op.prisma op).inserts then 1 else 0 := by
  cases op with
  | userUpdate id d => exact absurd rfl (hu id d)
  | notificationCreate n =>
    cases h
    simp only [Db.rowCount, Op.inserts, List.length_append, List.length_singleton, if_true]
    omega
  | loginLogCreate n =>
    cases h
    simp only [Db.rowCount, Op.inserts, List.length_append, List.length_singleton, if_true]
    omega
  | userFindFirst e n =>
    simp only [run] at h
    split at h
    · cases h; rfl
    · obtain ⟨u, -, hu⟩ := Option.map_eq_some_iff.mp h
      cases hu; rfl
  | _ =>
    simp only [run] at h
    repeat' split at h
    all_goals cases h
    all_goals rfl

theorem TxOp.run_rowCount {op : TxOp} {a r} (h : op.run a i o sh = some (sh', r)) :
    sh'.db.rowCount = sh.db.rowCount := by
  have write {id v inc nv tx r} (hw : run.write i id v inc nv tx sh = some (sh', r)) :
      sh'.db.rowCount = sh.db.rowCount := by
    unfold run.write at hw
    (repeat' split at hw) <;> cases hw <;> rfl
  cases op with
  | walletUpdate id v inc nv =>
    simp only [run] at h
    repeat' split at h
    all_goals first
      | cases h
      | exact write h
  | commit =>
    simp only [run, Option.map_eq_some_iff] at h
    obtain ⟨tx, -, h⟩ := h
    unfold Shared.commit at h
    split at h
    · cases h; rfl
    · dsimp only at h
      split at h <;> cases h <;> rfl
  | _ =>
    simp only [run] at h
    repeat' split at h
    all_goals cases h
    all_goals rfl

/-- A call inserts a row exactly if it is an insert and lands. A `user.update`
may write the notifications of its user, too. -/
theorem exec_rowCount {c : Choice} {op : Op} {r} (hu : ∀ id d, op ≠ .prisma (.userUpdate id d))
    (h : exec c i o op sh = some (sh', r)) :
    sh'.db.rowCount = sh.db.rowCount + if op.inserts && c.lands then 1 else 0 := by
  have ran {a r₀} (hrun : op.run a i o sh = some (sh', r₀)) :
      sh'.db.rowCount = sh.db.rowCount + if op.inserts then 1 else 0 := by
    cases op with
    | prisma op => exact PrismaOp.run_rowCount (fun id d he => hu id d (by rw [he])) hrun
    | tx op => exact TxOp.run_rowCount hrun
    | _ => cases hrun; rfl
  cases c with
  | ok a => simpa only [Choice.lands, Bool.and_true] using ran h
  | fail =>
    cases h
    cases op with
    | tx op => cases op <;> rfl
    | _ => simp [Choice.lands, Op.fail]
  | failAfter a =>
    obtain ⟨⟨sh₁, r₀⟩, hrun, he⟩ := Option.map_eq_some_iff.mp h
    cases he
    simpa only [Choice.lands, Bool.and_true] using ran hrun

end

/-- What is counted for a message are the rows its deliveries add. -/
theorem step_rowCount {s t : State} {i : Nat} {c : Choice} {m : Message} {op : Op} {k}
    (hi : s.threads[i]? = some ⟨.delivery m, .call op k⟩) (hu : ∀ id d, op ≠ .prisma (.userUpdate id d))
    (h : step s (.run i c) = some t) :
    t.shared.db.rowCount = s.shared.db.rowCount + s.rowsOf m (.run i c) := by
  obtain ⟨sh, r, he, rfl⟩ := (Machine.step_run hi).mp h
  rw [exec_rowCount hu he]
  cases hop : op.inserts with
  | false => simp [State.rowsOf, State.records?, hi, ServiceThread.inserting?, hop]
  | true =>
    cases c <;>
      simp [State.rowsOf, State.records?, hi, ServiceThread.inserting?, hop, Choice.lands]

/-! ## One delivery -/

abbrev InsertsNothing {α : Type} (c : Proc α) : Prop := c.Only fun op => op.inserts = false

/-- A program that inserts with its first call or not at all. -/
def InsertsFirst {α : Type} : Proc α → Prop
  | .ret _ => True
  | .call _ k => ∀ r, InsertsNothing (k r)

namespace InsertsFirst
variable {α β : Type}

theorem of_nothing {c : Proc α} (h : InsertsNothing c) : InsertsFirst c := by
  cases c with
  | ret r => trivial
  | call op k => exact h.2

theorem perform (op : Op) : InsertsFirst (call op) := fun _ => trivial

theorem bind {c : Proc α} {f : α → Proc β} (hc : InsertsFirst c) (hf : ∀ a, InsertsNothing (f a)) :
    InsertsFirst (c >>= f) := by
  cases c with
  | ret r => cases r with
    | ok a => exact .of_nothing (hf a)
    | error e => trivial
  | call op k => exact fun r => (hc r).bind hf

theorem tryCatch {c : Proc α} {h : Err → Proc α} (hc : InsertsFirst c)
    (hh : ∀ e, InsertsNothing (h e)) : InsertsFirst (tryCatch c h) := by
  cases c with
  | ret r => cases r with
    | ok a => trivial
    | error e => exact .of_nothing (hh e)
  | call op k => exact fun r => (hc r).tryCatch hh

end InsertsFirst

theorem consume_insertsFirst {q : Queue} {handler : Proc Unit} {m : Message}
    (h : InsertsFirst handler) : InsertsFirst (consume q handler m) := by
  have republish (q : Queue) : InsertsNothing (do
      sendToQueue q m.data (some (m.attempts + 1))
      call (.rabbit (.ack m))) :=
    .bind (.tryCatch (.bind (.perform rfl) fun _ => .perform rfl) fun _ => trivial)
      fun _ => .perform rfl
  refine h.tryCatch fun _ => ?_
  split
  · exact republish _
  · exact republish _

theorem notificationHandler_insertsFirst (n : Notification) : InsertsFirst (notificationHandler n) := by
  unfold notificationHandler
  split
  · trivial
  · exact .tryCatch (.perform _) fun _ => trivial

theorem delivery_insertsFirst {m : Message} (hm : m.queue = .notifications ∨ m.queue = .loginLogs) :
    InsertsFirst (Origin.delivery m).program := by
  refine .bind (c := (deliver m).getD (pure ())) ?_ fun _ => trivial
  cases hd : deliver m with
  | none => trivial
  | some c =>
    unfold deliver at hd
    split at hd
    · next hq _ => rw [hq] at hm; rcases hm with hm | hm <;> cases hm
    · next hq _ => rw [hq] at hm; rcases hm with hm | hm <;> cases hm
    · next hq _ => rw [hq] at hm; rcases hm with hm | hm <;> cases hm
    · next n _ _ =>
      cases hd
      exact consume_insertsFirst (notificationHandler_insertsFirst n)
    · cases hd
      exact consume_insertsFirst (.perform _)
    · cases hd

/-! ## All deliveries of a message -/

/-- Nobody delivers the message again, and the broker takes it back only while
no delivery of it has left a row and none is about to. -/
structure BackUnrecorded (m : Message) (n : Nat) (s : State) (l : Step) : Prop where
  redeliver : l ≠ .env (.redeliver m)
  requeue : l = .env (.requeue m) → n = 0 ∧ ∀ th ∈ s.threads, ServiceThread.inserting? th ≠ some m

/-- The deliveries of `m` that are about to insert. -/
def State.inserting (s : State) (m : Message) : Nat :=
  s.threads.countP fun th => ServiceThread.inserting? th = some m

/-- One row at most is left or can still be: by a delivery that is about to
insert it, or by one to come. -/
structure AtMostOnce (m : Message) (s : State) (n : Nat) : Prop where
  unpublished : s.shared.broker.nextTag ≤ m.tag → n = 0 ∧ s.inserting m = 0 ∧
    s.shared.broker.ready.count m = 0 ∧ s.shared.broker.unacked.count m = 0
  held : s.shared.broker.ready.count m + s.shared.broker.unacked.count m ≤ 1
  rows : n + s.inserting m + s.shared.broker.ready.count m ≤ 1
  first : ∀ th ∈ s.threads, th.origin = .delivery m → InsertsFirst th.prog

section
variable {m : Message} {s : State} {n : Nat}

theorem AtMostOnce.weaken {t : State} {k : Nat} (h : AtMostOnce m s n)
    (tags : s.shared.broker.nextTag ≤ t.shared.broker.nextTag)
    (ready : t.shared.broker.ready.count m ≤ s.shared.broker.ready.count m)
    (unacked : t.shared.broker.unacked.count m ≤ s.shared.broker.unacked.count m)
    (rows : k + t.inserting m ≤ n + s.inserting m)
    (first : ∀ th ∈ t.threads, th.origin = .delivery m → InsertsFirst th.prog) : AtMostOnce m t k := by
  have := h.held
  have := h.rows
  refine ⟨fun ht => ?_, by omega, by omega, first⟩
  obtain ⟨_, _, _, _⟩ := h.unpublished (tags.trans ht)
  omega

/-- A thread that has moved on is not counted any more. -/
theorem inserting_set {i : Nat} {th : ServiceThread} (th' : ServiceThread) (sh : Shared)
    (hi : s.threads[i]? = some th) (hn : th'.inserting? ≠ some m) :
    State.inserting ⟨sh, s.threads.set i th'⟩ m + (if th.inserting? = some m then 1 else 0) =
      s.inserting m := by
  obtain ⟨hlt, hget⟩ := List.getElem?_eq_some_iff.mp hi
  have before := List.boole_getElem_le_countP (p := fun th => ServiceThread.inserting? th = some m)
    (l := s.threads) hlt
  have after := List.countP_set (p := fun th => ServiceThread.inserting? th = some m) (a := th') hlt
  rw [hget] at before after
  simp only [decide_eq_true_eq, hn, if_false, Nat.add_zero] at before after
  show List.countP _ (s.threads.set i th') + _ = List.countP _ s.threads
  omega

theorem inserting?_eq {th : ServiceThread} (h : th.inserting? = some m) :
    th.origin = .delivery m ∧ ¬ InsertsNothing th.prog := by
  obtain ⟨o, prog⟩ := th
  unfold ServiceThread.inserting? at h
  split at h
  · next m' op k he =>
    cases he
    split at h
    · next hop =>
      cases h
      refine ⟨rfl, fun nothing => ?_⟩
      rw [nothing.1] at hop
      cases hop
    · cases h
  · cases h

theorem first_set {i : Nat} (th' : ServiceThread)
    (h : ∀ th ∈ s.threads, th.origin = .delivery m → InsertsFirst th.prog)
    (hn : th'.origin = .delivery m → InsertsFirst th'.prog) :
    ∀ th ∈ s.threads.set i th', th.origin = .delivery m → InsertsFirst th.prog := by
  intro x hx ho
  rcases List.mem_or_eq_of_mem_set hx with hx | rfl
  · exact h x hx ho
  · exact hn ho

theorem count_push (ms : List Message) (m : Message) : (ms ++ [m]).count m = ms.count m + 1 := by
  rw [List.count_append, List.count_singleton_self]

theorem count_push_of_ne (ms : List Message) {m m' : Message} (h : m' ≠ m) :
    (ms ++ [m']).count m = ms.count m := by
  rw [List.count_append, List.count_singleton, beq_false_of_ne h]
  rfl

theorem AtMostOnce.start {o : Origin} {sh : Shared} (h : AtMostOnce m s n)
    (hm : m.queue = .notifications ∨ m.queue = .loginLogs) (ha : o.accept s.shared = some sh) :
    AtMostOnce m ⟨sh, s.threads ++ [⟨o, o.program⟩]⟩ n := by
  have first : ∀ th ∈ s.threads ++ [⟨o, o.program⟩], th.origin = .delivery m →
      InsertsFirst th.prog := by
    intro th hth ho
    rcases List.mem_append.mp hth with hth | hth
    · exact h.first th hth ho
    · cases List.mem_singleton.mp hth
      cases (show o = .delivery m from ho)
      exact delivery_insertsFirst hm
  have started : State.inserting ⟨sh, s.threads ++ [⟨o, o.program⟩]⟩ m = s.inserting m +
      if ServiceThread.inserting? ⟨o, o.program⟩ = some m then 1 else 0 := by
    show List.countP _ (s.threads ++ [_]) = _
    rw [List.countP_append, List.countP_singleton]
    simp only [decide_eq_true_eq]
    rfl
  -- the start of anything but a delivery of the message itself
  have other (ho : o ≠ .delivery m) : State.inserting ⟨sh, s.threads ++ [⟨o, o.program⟩]⟩ m =
      s.inserting m := by
    rw [started, if_neg fun hi => ho (inserting?_eq hi).1, Nat.add_zero]
  cases o with
  | http tok r =>
    obtain ⟨-, rfl⟩ := Origin.accept_http ha
    have elsewhere := other fun he => by cases he
    exact h.weaken le_rfl le_rfl le_rfl (Nat.add_le_add_left elsewhere.le n) first
  | delivery m' =>
    obtain ⟨ready, -, rfl⟩ := Origin.accept_delivery ha
    by_cases same : m' = m
    · subst same
      have waiting := List.count_pos_iff.mpr ready
      have left : (s.shared.broker.ready.erase m').count m' = s.shared.broker.ready.count m' - 1 :=
        List.count_erase_self
      have taken := count_push s.shared.broker.unacked m'
      have held := h.held
      have rows := h.rows
      refine ⟨fun ht => ?_, ?_, ?_, first⟩
      · obtain ⟨-, -, none, -⟩ := h.unpublished ht
        omega
      · show List.count m' (s.shared.broker.ready.erase m') +
          List.count m' (s.shared.broker.unacked ++ [m']) ≤ 1
        omega
      · rw [started]
        show _ + List.count m' (s.shared.broker.ready.erase m') ≤ 1
        split <;> omega
    · refine h.weaken le_rfl (List.erase_sublist.count_le m) (count_push_of_ne _ same).le ?_ first
      exact Nat.add_le_add_left (other fun he => same (by cases he; rfl)).le n

theorem AtMostOnce.call {i : Nat} {c : Choice} {o : Origin} {op : Op} {k} {sh r}
    (h : AtMostOnce m s n) (hi : s.threads[i]? = some ⟨o, .call op k⟩)
    (he : exec c i o op s.shared = some (sh, r)) :
    AtMostOnce m ⟨sh, s.threads.set i ⟨o, k r⟩⟩ (n + s.rowsOf m (.run i c)) := by
  have nothing (ho : o = .delivery m) : InsertsNothing (k r) :=
    h.first _ (List.mem_of_getElem? hi) ho r
  have first := first_set (i := i) ⟨o, k r⟩ h.first fun ho => .of_nothing (nothing ho)
  have moved := inserting_set (m := m) ⟨o, k r⟩ sh hi
    fun hn => (inserting?_eq hn).2 (nothing (inserting?_eq hn).1)
  have counted : s.rowsOf m (.run i c) ≤
      if ServiceThread.inserting? ⟨o, .call op k⟩ = some m then 1 else 0 := by
    simp only [State.rowsOf, State.records?, hi, Option.bind_some]
    cases c.lands with
    | true => rfl
    | false => exact Nat.zero_le _
  have rows : n + s.rowsOf m (.run i c) + State.inserting ⟨sh, s.threads.set i ⟨o, k r⟩⟩ m ≤
      n + s.inserting m := by
    omega
  rcases exec_broker he with hb | ⟨op', rfl, hb⟩
  · exact h.weaken (by rw [hb]) (by rw [hb]) (by rw [hb]) rows first
  · cases op' with
    | assertQueue q => exact h.weaken (by rw [hb]; rfl) (by rw [hb]; rfl) (by rw [hb]; rfl) rows first
    | ack m' =>
      refine h.weaken (by rw [hb]; rfl) (by rw [hb]; rfl) ?_ rows first
      rw [hb]
      exact List.erase_sublist.count_le m
    | sendToQueue q data x =>
      have tags : sh.broker.nextTag = s.shared.broker.nextTag + 1 := by rw [hb]; rfl
      have unacked : sh.broker.unacked = s.shared.broker.unacked := by rw [hb]; rfl
      have ready : sh.broker.ready =
          s.shared.broker.ready ++ [⟨q, data, x, s.shared.broker.nextTag⟩] := by rw [hb]; rfl
      by_cases same : (⟨q, data, x, s.shared.broker.nextTag⟩ : Message) = m
      · have now : m.tag = s.shared.broker.nextTag := by rw [← same]
        have published : sh.broker.ready.count m = s.shared.broker.ready.count m + 1 := by
          rw [ready, same, count_push]
        obtain ⟨_, _, _, _⟩ := h.unpublished now.ge
        refine ⟨fun ht => ?_, ?_, ?_, first⟩
        · dsimp only at ht
          omega
        · dsimp only
          rw [unacked]
          omega
        · dsimp only
          omega
      · refine h.weaken (by dsimp only; omega) ?_ (by rw [unacked]) rows first
        rw [ready, count_push_of_ne _ same]

theorem AtMostOnce.env {e : EnvStep} {sh : Shared} (h : AtMostOnce m s n)
    (hc : BackUnrecorded m n s (.env e)) (he : e.run s.shared = some sh) :
    AtMostOnce m ⟨sh, s.threads⟩ n := by
  cases e with
  | expire k => cases he; exact h.weaken le_rfl le_rfl le_rfl le_rfl h.first
  | tick => cases he; exact h.weaken le_rfl le_rfl le_rfl le_rfl h.first
  | requeue m' =>
    simp only [EnvStep.run] at he
    split at he <;> cases he
    next held =>
      by_cases same : m' = m
      · subst same
        have nobody : s.inserting m' = 0 := by
          refine List.countP_eq_zero.mpr fun th hth => ?_
          simpa only [decide_eq_true_eq] using (hc.requeue rfl).2 th hth
        have unrecorded := (hc.requeue rfl).1
        have waiting := List.count_pos_iff.mpr held
        have left : (s.shared.broker.unacked.erase m').count m' =
            s.shared.broker.unacked.count m' - 1 := List.count_erase_self
        have back := count_push s.shared.broker.ready m'
        have one := h.held
        refine ⟨fun ht => ?_, ?_, ?_, h.first⟩
        · obtain ⟨-, -, -, none⟩ := h.unpublished ht
          omega
        · show List.count m' (s.shared.broker.ready ++ [m']) +
            List.count m' (s.shared.broker.unacked.erase m') ≤ 1
          omega
        · show n + s.inserting m' + List.count m' (s.shared.broker.ready ++ [m']) ≤ 1
          omega
      · exact h.weaken le_rfl (count_push_of_ne _ same).le (List.erase_sublist.count_le m) le_rfl
          h.first
  | redeliver m' =>
    have other : m' ≠ m := fun same => hc.redeliver (by rw [same])
    simp only [EnvStep.run] at he
    split at he <;> cases he
    exact h.weaken le_rfl (count_push_of_ne _ other).le le_rfl le_rfl h.first

theorem AtMostOnce.step {t : State} {l : Step} (h : AtMostOnce m s n)
    (hm : m.queue = .notifications ∨ m.queue = .loginLogs) (hc : BackUnrecorded m n s l)
    (hst : Pactic.step s l = some t) : AtMostOnce m t (n + s.rowsOf m l) := by
  cases Machine.step_fires hst with
  | start ha => exact h.start hm ha
  | run hi he => exact h.call hi he
  | env he => exact h.env hc he
  | @kill i o op k hi =>
    have moved := inserting_set (m := m) ⟨o, .ret (.error .crashed)⟩ (service.abort i s.shared) hi
      (fun hn => (inserting?_eq hn).2 trivial)
    refine h.weaken le_rfl le_rfl le_rfl ?_ (first_set _ h.first fun _ => trivial)
    show n + 0 + _ ≤ _
    omega

/-- Of a message published during the run. -/
theorem AtMostOnce.first_state (hs : s.threads = []) (hb : s.shared.broker.Numbered)
    (fresh : s.shared.broker.nextTag ≤ m.tag) : AtMostOnce m s 0 := by
  have ready : s.shared.broker.ready.count m = 0 :=
    List.count_eq_zero.mpr fun hm => absurd (hb m (.inl hm)) (Nat.not_lt.mpr fresh)
  have unacked : s.shared.broker.unacked.count m = 0 :=
    List.count_eq_zero.mpr fun hm => absurd (hb m (.inr (.inl hm))) (Nat.not_lt.mpr fresh)
  have nobody : s.inserting m = 0 := by
    unfold State.inserting
    rw [hs]
    rfl
  refine ⟨fun _ => ⟨rfl, nobody, ready, unacked⟩, by omega, by omega, fun th hth => ?_⟩
  rw [hs] at hth
  cases hth

/-- A message published during the run leaves one row at most, if the broker
takes it back only while none is left and none is about to be. -/
theorem recorded_at_most_once (hm : m.queue = .notifications ∨ m.queue = .loginLogs) {t : State}
    (hs : s.threads = []) (hb : s.shared.broker.Numbered) (fresh : s.shared.broker.nextTag ≤ m.tag)
    (h : service.Counts .crashed (State.rowsOf m) (BackUnrecorded m) s t n) : n ≤ 1 := by
  have once := Machine.Counts.invariant (I := AtMostOnce m) (.first_state hs hb fresh)
    (fun _ _ _ _ hc hI hst => hI.step hm hc hst) h
  have rows := once.rows
  omega

end

/-! ## A failed login -/

/-- Somebody without an account logs in. -/
def loginMessage : Message :=
  ⟨.loginLogs, .login ⟨none, "eve@pactic.io", "::1", "curl", none, false⟩, none, 0⟩

def failedLogin : List Step :=
  .start (.http 0 (.login ⟨"eve@pactic.io", "secret"⟩ "::1" "curl")) :: calls 0 3

/-- The process dies before the insert; after it has restarted, the message is
delivered again. -/
def recordedLater : List Step := failedLogin ++
  [.start (.delivery loginMessage), .kill 1, .env (.requeue loginMessage),
    .start (.delivery loginMessage)] ++ calls 2 1

/-- The connection ends after the insert. -/
def recordedTwice : List Step := failedLogin ++ .start (.delivery loginMessage) :: calls 1 1 ++
  [.env (.requeue loginMessage), .start (.delivery loginMessage)] ++ calls 2 1

def backUnrecorded (m : Message) (n : Nat) (s : State) : Step → Bool
  | .env (.redeliver m') => m' ≠ m
  | .env (.requeue m') =>
    m' ≠ m || (n == 0 && s.threads.all fun th => ServiceThread.inserting? th ≠ some m)
  | _ => true

theorem backUnrecorded_sound {m : Message} {n : Nat} {s : State} {l : Step}
    (h : backUnrecorded m n s l = true) : BackUnrecorded m n s l := by
  constructor
  · rintro rfl
    simp [backUnrecorded] at h
  · rintro rfl
    simpa [backUnrecorded] using h

theorem recorded_at_most_once_later : ∃ t n, n ≤ 1 ∧ n = 1 ∧ t.shared.db.loginLogs.length = 1 ∧
    service.Counts .crashed (State.rowsOf loginMessage) (BackUnrecorded loginMessage)
      State.empty t n := by
  have run : (service.runsCount .crashed (State.rowsOf loginMessage) (backUnrecorded loginMessage)
      recordedLater State.empty 0).any (fun r =>
        r.2 = 1 ∧ r.1.shared.db.loginLogs.length = 1) = true := by
    decide +kernel
  rw [Option.any_eq_true] at run
  obtain ⟨⟨t, n⟩, hr, after⟩ := run
  simp only [decide_eq_true_eq] at after
  have counts := Machine.counts_of_runsCount (fun _ _ _ _ => backUnrecorded_sound) .refl hr
  exact ⟨t, n, recorded_at_most_once (m := loginMessage) (.inr rfl) rfl State.empty_numbered
    (Nat.le_refl 0) counts,
    after.1, after.2, counts⟩

/-- The connection may end at any time; the broker delivers nothing else again,
and no handler is cut off. -/
def Reconnecting (_ : Nat) (_ : State) (l : Step) : Prop :=
  (∀ m, l ≠ .env (.redeliver m)) ∧ ∀ i, l ≠ .kill i

theorem login_recorded_twice : ¬ ∀ m : Message, m.queue = .notifications ∨ m.queue = .loginLogs →
    ∀ t n, service.Counts .crashed (State.rowsOf m) Reconnecting State.empty t n → n ≤ 1 := by
  intro recordedOnce
  have run : (service.runsCount .crashed (State.rowsOf loginMessage) (fun _ _ _ => true)
      recordedTwice State.empty 0).any (fun r =>
        r.2 = 2 ∧ r.1.shared.db.loginLogs.length = 2) = true := by
    decide +kernel
  rw [Option.any_eq_true] at run
  obtain ⟨⟨t, n⟩, hr, after⟩ := run
  simp only [decide_eq_true_eq] at after
  have counts := Machine.counts_of_runsCount (C := Reconnecting) (fun _ _ l hl _ => ?_) .refl hr
  · have once := recordedOnce loginMessage (.inr rfl) t n counts
    omega
  · constructor
    · rintro m rfl
      simp [recordedTwice, failedLogin, calls] at hl
    · rintro i rfl
      simp [recordedTwice, failedLogin, calls] at hl

end Pactic
