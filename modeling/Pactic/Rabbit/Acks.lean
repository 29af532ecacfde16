import Pactic.Model.Channel

/-! # Acknowledgements

The callback acknowledges in its catch block only. A delivery whose handler
returned, or whose content did not parse, is acknowledged by nobody unless a
handler does it. -/
namespace Pactic
open Resumption

section
variable {Queue Content Data Header ε : Type} (js : Language Content Data Header ε)

/-- The catch block comes to its end: it reads the error and counts the attempt. -/
def Language.Counts (err : ε) (xAttempts : Option Header) : Prop :=
  js.message err = .ok () ∧ (∃ last, js.isLast (js.orZero xAttempts) = .ok last) ∧
    ∃ attempts, js.next (js.orZero xAttempts) = .ok attempts

/-- The content parses and the handler threw what the catch block can handle. -/
def Language.Settles (d : Delivery Queue Content Header) (ending : Option (Except ε Unit)) : Prop :=
  (∃ data, js.parse d.content = .ok data) ∧
    ∃ err, ending = some (.error err) ∧ js.Counts err d.xAttempts

/-! ## One callback -/

/-- Where a callback stands. -/
inductive AckStage (ε : Type) where
  | waiting
  | ended (result : Except ε Unit)
  | acked (err : ε)

def AckStage.ending : AckStage ε → Option (Except ε Unit)
  | waiting => none
  | ended result => some result
  | acked err => some (.error err)

def AckStage.acks : AckStage ε → Nat
  | acked _ => 1
  | _ => 0

/-- One handler, and at most one acknowledgement of its own delivery after it. -/
def acknowledging (d : Delivery Queue Content Header) :
    Monitor (ChannelOp Queue Data Header) (fun _ => Unit) ε (AckStage ε) where
  allow p
    | .handle _ => p = .waiting
    | .ack tag => tag = d.tag ∧ ∃ err, p = .ended (.error err)
    | _ => True
  next p op r := match op, p with
    | .handle _, _ => .ended r
    | .ack _, .ended (.error err) => .acked err
    | _, p => p

/-- A callback that is over has acknowledged exactly if it settles. -/
def AckStage.Final (d : Delivery Queue Content Header) (p : AckStage ε) : Prop :=
  (js.Settles d p.ending ∧ p.acks = 1) ∨ (¬ js.Settles d p.ending ∧ p.acks = 0)

/-- `sendToQueue` never throws. -/
theorem sendToQueue_wp {d : Delivery Queue Content Header} {p : AckStage ε} {q : Queue} {data : Data}
    {x : Header} {Q : Except ε Unit → AckStage ε → Prop} (hQ : Q (.ok ()) p) :
    (acknowledging d).wp (ChannelProc.sendToQueue q data x) Q p := by
  refine (Monitor.wp_tryCatch _ _ _ _ _).mpr ⟨trivial, fun asserted => ?_⟩
  cases asserted with
  | error e => exact hQ
  | ok _ =>
    refine ⟨trivial, fun sent => ?_⟩
    cases sent with
    | error e => exact hQ
    | ok _ => exact hQ

theorem callback_acknowledges (dead : Queue) (d : Delivery Queue Content Header) :
    (acknowledging d).wp (d.program js dead) (fun _ => AckStage.Final js d) .waiting := by
  have idle {p : AckStage ε} (hs : ¬ js.Settles d p.ending) (ha : p.acks = 0) :
      AckStage.Final js d p := .inr ⟨hs, ha⟩
  unfold Delivery.program callback
  refine (Monitor.wp_bind _ _ _ _ _).mpr ?_
  cases parsed : js.parse d.content with
  | error e =>
    refine idle ?_ rfl
    rintro ⟨-, err, hn, -⟩
    cases hn
  | ok data =>
    refine (Monitor.wp_tryCatch _ _ _ _ _).mpr ⟨rfl, fun result => ?_⟩
    cases result with
    | ok _ =>
      refine idle ?_ rfl
      rintro ⟨-, err, hn, -⟩
      cases hn
    | error err =>
      -- whatever throws in the catch block leaves the delivery as it is
      have stuck (hc : ¬ js.Counts err d.xAttempts) :
          AckStage.Final js d (.ended (.error err)) := by
        refine idle ?_ rfl
        rintro ⟨-, err', hn, counts⟩
        cases hn
        exact hc counts
      refine (Monitor.wp_bind _ _ _ _ _).mpr ?_
      cases read : js.message err with
      | error e =>
        refine stuck fun hc => ?_
        rw [hc.1] at read
        cases read
      | ok _ =>
        refine (Monitor.wp_bind _ _ _ _ _).mpr ?_
        cases compared : js.isLast (js.orZero d.xAttempts) with
        | error e =>
          refine stuck fun hc => ?_
          obtain ⟨last, hl⟩ := hc.2.1
          rw [hl] at compared
          cases compared
        | ok last =>
          have counted {q : Queue} : (acknowledging d).wp (do
              ChannelProc.sendToQueue q data (← .ret (js.next (js.orZero d.xAttempts)))
              Prog.perform (.ack d.tag)) (fun _ => AckStage.Final js d) (.ended (.error err)) := by
            refine (Monitor.wp_bind _ _ _ _ _).mpr ?_
            cases added : js.next (js.orZero d.xAttempts) with
            | error e =>
              refine stuck fun hc => ?_
              obtain ⟨n, hn⟩ := hc.2.2
              rw [hn] at added
              cases added
            | ok n =>
              refine (Monitor.wp_bind _ _ _ _ _).mpr (sendToQueue_wp ⟨⟨rfl, err, rfl⟩, fun r => ?_⟩)
              exact .inl ⟨⟨⟨data, parsed⟩, err, rfl, read, ⟨last, compared⟩, n, added⟩, rfl⟩
          cases last with
          | true => exact counted
          | false => exact counted

/-! ## All callbacks of the channel -/

variable {js} {dead : Queue}

/-- The tags number the callbacks, and the channel has counted what they did. -/
structure Tallied (s : ChannelState Queue Content Data Header ε)
    (g : Machine.Ghost (Delivery Queue Content Header) (AckStage ε)) : Prop where
  length : s.threads.length = s.shared.delivered
  callback : ∀ {i d p}, g i = some (d, p) →
    d.tag = i ∧ s.shared.endings i = p.ending ∧ s.shared.acks.count i = p.acks
  fresh : ∀ {i}, g i = none → s.shared.endings i = none ∧ s.shared.acks.count i = 0

/-- No callback is cut off by the end of its process. -/
def Uncut (_ : ChannelState Queue Content Data Header ε)
    (l : ChannelStep Queue Content Header ε) : Prop :=
  ∀ i, l ≠ .kill i

/-- Callback `i` moves to another stage, and the channel counts it. -/
theorem Tallied.moved {s : ChannelState Queue Content Data Header ε} {g} {i : Nat}
    {d : Delivery Queue Content Header} {p p' : AckStage ε} {sh : Channel Queue Data Header ε} (th)
    (h : Tallied s g) (hg : g i = some (d, p)) (delivered : sh.delivered = s.shared.delivered)
    (others : ∀ k, k ≠ i → sh.endings k = s.shared.endings k ∧
      sh.acks.count k = s.shared.acks.count k)
    (own : sh.endings i = p'.ending ∧ sh.acks.count i = p'.acks) :
    Tallied ⟨sh, s.threads.set i th⟩ (Function.update g i (some (d, p'))) := by
  refine ⟨?_, fun {k d' q} hk => ?_, fun {k} hk => ?_⟩
  · rw [List.length_set, delivered]
    exact h.length
  · by_cases hki : k = i
    · subst hki
      rw [Function.update_self] at hk
      cases hk
      exact ⟨(h.callback hg).1, own⟩
    · rw [Function.update_of_ne hki] at hk
      dsimp only
      rw [(others k hki).1, (others k hki).2]
      exact h.callback hk
  · have hki : k ≠ i := by
      rintro rfl
      rw [Function.update_self] at hk
      cases hk
    rw [Function.update_of_ne hki] at hk
    dsimp only
    rw [(others k hki).1, (others k hki).2]
    exact h.fresh hk

theorem Tallied.call {s : ChannelState Queue Content Data Header ε} {g} {i : Nat}
    {d : Delivery Queue Content Header} {p : AckStage ε} {op : ChannelOp Queue Data Header} (th)
    (h : Tallied s g) (hg : g i = some (d, p)) (allowed : (acknowledging d).allow p op) (c : Ending ε) :
    Tallied ⟨(op.run c d s.shared).1, s.threads.set i th⟩
      (Function.update g i (some (d, (acknowledging d).next p op (op.run c d s.shared).2))) := by
  obtain ⟨tag, ending, acks⟩ := h.callback hg
  have still (k : Nat) (_ : k ≠ i) : s.shared.endings k = s.shared.endings k ∧
      s.shared.acks.count k = s.shared.acks.count k := ⟨rfl, rfl⟩
  cases op with
  | assertQueue q => exact h.moved th hg rfl still ⟨ending, acks⟩
  | sendToQueue q data x =>
    unfold ChannelOp.run
    cases c.result with
    | ok _ => exact h.moved th hg rfl still ⟨ending, acks⟩
    | error e => exact h.moved th hg rfl still ⟨ending, acks⟩
  | handle data =>
    cases (show p = .waiting from allowed)
    refine h.moved th hg rfl (fun k hk => ⟨?_, rfl⟩) ⟨?_, acks⟩
    · show Function.update s.shared.endings d.tag (some c.result) k = s.shared.endings k
      rw [tag, Function.update_of_ne hk]
    · show Function.update s.shared.endings d.tag (some c.result) i = some c.result
      rw [tag, Function.update_self]
  | ack tag' =>
    obtain ⟨rfl, err, rfl⟩ := allowed
    have count (k : Nat) : (s.shared.acks ++ [d.tag]).count k =
        s.shared.acks.count k + if k = i then 1 else 0 := by
      simp only [List.count_append, List.count_singleton, tag, beq_iff_eq, eq_comm (a := i)]
    refine h.moved th hg rfl (fun k hk => ⟨rfl, ?_⟩) ⟨ending, ?_⟩
    · show (s.shared.acks ++ [d.tag]).count k = s.shared.acks.count k
      rw [count, if_neg hk, Nat.add_zero]
    · show (s.shared.acks ++ [d.tag]).count i = 1
      rw [count, acks, if_pos rfl]
      rfl

theorem Tallied.step {s t : ChannelState Queue Content Data Header ε} {g g'}
    {l : ChannelStep Queue Content Header ε} (hc : Uncut s l) (h : Tallied s g)
    (hf : Machine.Follows (channel js dead) crash acknowledging (fun _ => .waiting) s g l t g') :
    Tallied t g' := by
  cases hf with
  | @start d sh accepted free =>
    simp only [channel, Delivery.accept] at accepted
    split at accepted <;> cases accepted
    next tag =>
      refine ⟨?_, fun {k d' p'} hk => ?_, fun {k} hk => ?_⟩
      · simp only [List.length_append, List.length_singleton, h.length]
      · by_cases hks : k = s.threads.length
        · subst hks
          rw [Function.update_self] at hk
          cases hk
          exact ⟨tag.trans h.length.symm, h.fresh free⟩
        · rw [Function.update_of_ne hks] at hk
          exact h.callback hk
      · by_cases hks : k = s.threads.length
        · subst hks
          rw [Function.update_self] at hk
          cases hk
        · rw [Function.update_of_ne hks] at hk
          exact h.fresh hk
  | @run i c d op k sh r p hi hg allowed he =>
    have ran := h.call ⟨d, k r⟩ hg allowed c
    rw [Option.some.inj he] at ran
    exact ran
  | @env e => exact e.elim
  | @kill i => exact absurd rfl (hc i)

variable (js) in
/-- The invariant of a channel on which no callback is cut off. -/
structure Conducted (s : ChannelState Queue Content Data Header ε)
    (g : Machine.Ghost (Delivery Queue Content Header) (AckStage ε)) : Prop where
  tallied : Tallied s g
  alive : Machine.AllAlive acknowledging (fun d _ => AckStage.Final js d) s.threads g

theorem conducted_fresh :
    Conducted js (ChannelState.fresh : ChannelState Queue Content Data Header ε) fun _ => none := by
  refine ⟨⟨rfl, nofun, fun _ => ⟨rfl, rfl⟩⟩, ?_⟩
  intro i th hi
  cases hi

variable (js dead) in
/-- An idle channel has acknowledged a delivery exactly once if the callback has
settled it and no handler has acknowledged it, or the callback has not and the
handlers have, once. -/
theorem acked_once_iff (crash : ε) {t : ChannelState Queue Content Data Header ε}
    (h : (channel js dead).Reach crash Uncut ChannelState.fresh t) (idle : t.idle = true) {th}
    (hth : th ∈ t.threads) : t.shared.acked th.origin.tag = 1 ↔
      (js.Settles th.origin (t.shared.endings th.origin.tag) ∧
        t.shared.handlerAcks.count th.origin.tag = 0) ∨
      (¬ js.Settles th.origin (t.shared.endings th.origin.tag) ∧
        t.shared.handlerAcks.count th.origin.tag = 1) := by
  have acknowledges (d : Delivery Queue Content Header) := callback_acknowledges js dead d
  obtain ⟨g, -, tallied, alive⟩ := Machine.Tracks.invariant (I := Conducted js)
    (fun _ d _ _ _ => acknowledges d) (.of_nil rfl) conducted_fresh
    (fun _ _ _ _ _ hc ht hI hf => ⟨hI.tallied.step hc hf, hI.alive.step ht hf acknowledges hc⟩) h
  obtain ⟨d, prog⟩ := th
  obtain ⟨i, hi⟩ := List.mem_iff_getElem?.mp hth
  obtain ⟨p, q, hq, hg, final⟩ := alive i _ hi
  obtain ⟨tag, ending, acks⟩ := tallied.callback hg
  have ended := List.all_eq_true.mp idle _ hth
  rw [hi] at hq
  cases hq
  cases prog with
  | call op k => cases ended
  | ret r =>
    have total : t.shared.acked i = p.acks + t.shared.handlerAcks.count i := by
      rw [Channel.acked, List.count_append, acks]
    dsimp only at tag final ⊢
    rw [tag, total, ending]
    rcases final with ⟨settled, once⟩ | ⟨unsettled, never⟩
    · simp only [once, settled, not_true_eq_false, true_and, false_and, or_false]
      omega
    · simp only [never, unsettled, not_false_eq_true, true_and, false_and, false_or]
      omega

end

/-- A withdrawal, as `withdrawFromWallet` publishes it. -/
def withdrawalDelivery (tag : Nat) : Delivery Queue Payload Nat where
  tag := tag
  queue := .walletWithdrawal
  content := .job (.withdrawal ⟨1, 1, 5, "USD", "a"⟩)
  xAttempts := none

abbrev ServiceChannel := ChannelState Queue Payload Payload Nat Err

/-- Two withdrawals in turn: the handler of the first fails, that of the second
returns. -/
def failedAndDone : List (ChannelStep Queue Payload Nat Err) :=
  [.start (withdrawalDelivery 0), .start (withdrawalDelivery 1),
    .run 0 { result := .error .unavailable }, .run 1 {}, .run 0 {}, .run 0 {}, .run 0 {}]

/-- A state the two deliveries lead to, and what it counts. -/
theorem failedAndDone_runs {P : ServiceChannel → Bool}
    (h : ((channel service.language Queue.walletFundingDead).runs .crashed failedAndDone
      ChannelState.fresh).any P = true) : ∃ t : ServiceChannel,
    (channel service.language Queue.walletFundingDead).Reach .crashed Uncut ChannelState.fresh t ∧
      P t = true := by
  rw [Option.any_eq_true] at h
  obtain ⟨t, ht, after⟩ := h
  refine ⟨t, Machine.reach_of_runs (fun l hl s i => ?_) ht, after⟩
  rintro rfl
  simp [failedAndDone] at hl

/-- The callback of the failed one acknowledges, with no handler doing it. -/
theorem acked_once_iff_failed : ∃ t : ServiceChannel, ∃ th ∈ t.threads, th.origin.tag = 0 ∧
    (t.shared.acked th.origin.tag = 1 ↔
      (service.language.Settles th.origin (t.shared.endings th.origin.tag) ∧
        t.shared.handlerAcks.count th.origin.tag = 0) ∨
      (¬ service.language.Settles th.origin (t.shared.endings th.origin.tag) ∧
        t.shared.handlerAcks.count th.origin.tag = 1)) ∧ t.shared.acked 0 = 1 := by
  obtain ⟨t, reach, h⟩ := failedAndDone_runs (P := fun t => t.idle ∧ t.shared.acked 0 = 1 ∧
    ∃ th ∈ t.threads, th.origin.tag = 0) (by decide +kernel)
  simp only [decide_eq_true_eq] at h
  obtain ⟨idle, once, th, hth, tag⟩ := h
  exact ⟨t, th, hth, tag, acked_once_iff _ _ _ reach idle hth, once⟩

/-- A withdrawal that is carried out is never acknowledged: its handler returns. -/
theorem returned_delivery_unacked : ¬ ∀ t : ServiceChannel,
    (channel service.language Queue.walletFundingDead).Reach .crashed Uncut ChannelState.fresh t →
      t.idle = true → ∀ th ∈ t.threads, t.shared.acked th.origin.tag = 1 := by
  intro ackedOnce
  obtain ⟨t, reach, h⟩ := failedAndDone_runs (P := fun t => t.idle ∧
    ∃ th ∈ t.threads, t.shared.acked th.origin.tag = 0) (by decide +kernel)
  simp only [decide_eq_true_eq] at h
  obtain ⟨idle, th, hth, unacked⟩ := h
  have once := ackedOnce t reach idle th hth
  omega

end Pactic
