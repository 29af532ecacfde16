import Pactic.Lib.Potential
import Pactic.Model.Loop

/-! # The end of the retry loop

A callback that fails publishes its message again with one attempt more, so the
attempts a message has left pay for everything it can still cause. -/
namespace Pactic
open Resumption

section
variable {Queue Content Data ε : Type}

def Letter.attempts (x : Letter Queue Content) : Nat := x.xAttempts.getD 0

/-- Where the message goes when its handler throws. -/
def Letter.retryQueue (dead : Queue) (x : Letter Queue Content) : Queue :=
  if 2 ≤ x.attempts then dead else x.queue

/-! ## One callback -/

/-- Where a callback stands. It has its message until it has published it again
or does not go on. -/
inductive Attempt (ε : Type) where
  | handling
  | threw (err : ε)
  | asserted (err : ε)
  | sent
  | finished

variable (rt : Runtime Content Data ε) (dead : Queue)

/-- After the handler has thrown, in the catch block. -/
def Attempt.caught (err : ε) : Attempt ε :=
  match rt.message err with
  | .ok _ => .threw err
  | .error _ => .finished

def Attempt.first (x : Letter Queue Content) : Attempt ε :=
  match rt.parse x.content with
  | .ok _ => .handling
  | .error _ => .finished

/-- One handler, and if it throws one publication of its message. -/
def retrying (o : Consumption Queue Content) :
    Monitor (ChannelOp Queue Data Nat) (fun _ => Unit) ε (Attempt ε) where
  allow
    | .handling, .handle data => rt.parse o.letter.content = .ok data
    | .threw _, .assertQueue _ => True
    | .asserted _, .sendToQueue q data x => q = o.letter.retryQueue dead ∧
        rt.parse o.letter.content = .ok data ∧ x = o.letter.attempts + 1
    | .sent, .ack _ => True
    | _, _ => False
  next
    | .handling, _, .error err => .caught rt err
    | .threw err, _, .ok _ => .asserted err
    | .threw _, _, .error _ | .asserted _, _, _ => .sent
    | _, _, _ => .finished

/-- The end of the catch block: the message goes to its queue or to the dead
letters, and the delivery is acknowledged. -/
theorem republish_wp {o : Consumption Queue Content} {q : Queue} {data : Data} {e : ε}
    (parsed : rt.parse o.letter.content = .ok data) (hq : q = o.letter.retryQueue dead) :
    (retrying rt dead o).wp (do
      ChannelProc.sendToQueue q data (o.letter.attempts + 1)
      Prog.perform (.ack o.tag)) (fun _ p => p = .finished) (.threw e) := by
  have acked : (retrying rt dead o).wp (Prog.perform (.ack o.tag)) (fun _ p => p = .finished) .sent :=
    ⟨trivial, fun _ => rfl⟩
  refine (Monitor.wp_bind _ _ _ _ _).mpr ((Monitor.wp_tryCatch _ _ _ _ _).mpr ⟨trivial, fun r => ?_⟩)
  cases r with
  | error e => exact acked
  | ok _ =>
    refine ⟨⟨hq, parsed, rfl⟩, fun r => ?_⟩
    cases r with
    | error e => exact acked
    | ok _ => exact acked

theorem callback_retries (o : Consumption Queue Content) :
    (retrying rt dead o).wp (o.delivery.program rt.language dead) (fun _ p => p = .finished)
      (.first rt o.letter) := by
  unfold Delivery.program callback
  refine (Monitor.wp_bind _ _ _ _ _).mpr ?_
  cases parsed : rt.parse o.letter.content with
  | error e => simp only [Runtime.language, Consumption.delivery, Attempt.first, parsed, Monitor.wp]
  | ok data =>
    simp only [Runtime.language, Consumption.delivery, Attempt.first, parsed, Monitor.wp]
    refine (Monitor.wp_tryCatch _ _ _ _ _).mpr ⟨parsed, fun result => ?_⟩
    cases result with
    | ok _ => rfl
    | error err =>
      -- the state after the handler depends on whether the error can be read
      refine (Monitor.wp_bind _ _ _ _ _).mpr ?_
      have stage : (retrying rt dead o).next .handling (.handle data) (.error err) =
          .caught rt err := rfl
      rw [stage]
      cases read : rt.message err with
      | error e => simp only [Attempt.caught, read, Monitor.wp]
      | ok _ =>
        simp only [Attempt.caught, read, Monitor.wp]
        refine (Monitor.wp_bind _ _ _ _ _).mpr ?_
        by_cases last : 2 ≤ o.letter.attempts
        · have published := republish_wp rt dead (e := err) parsed (if_pos last).symm
          simp only [Monitor.wp, show decide (2 ≤ o.letter.xAttempts.getD 0) = true from
            decide_eq_true last, if_true]
          exact (Monitor.wp_bind _ _ _ _ _).mpr published
        · have published := republish_wp rt dead (e := err) parsed (if_neg last).symm
          simp only [Monitor.wp, show decide (2 ≤ o.letter.xAttempts.getD 0) = false from
            decide_eq_false last, Bool.false_eq_true, if_false]
          exact (Monitor.wp_bind _ _ _ _ _).mpr published

/-- What a call of a callback does to the messages, and where the callback
stands then. -/
inductive Advances (o : Consumption Queue Content) (b : Circulation Queue Content Data ε) :
    Attempt ε → Circulation Queue Content Data ε → Attempt ε → Prop where
  | returned {ch} : Advances o b .handling { b with
      toChannel := ch, results := b.results ++ [(o.letter.original, .ok ())] } .finished
  | failed {ch} (err) : Advances o b .handling { b with
      toChannel := ch, results := b.results ++ [(o.letter.original, .error err)] } (.caught rt err)
  | asserted {err} : Advances o b (.threw err) b (.asserted err)
  | published {ch err data} (parsed : rt.parse o.letter.content = .ok data) :
      Advances o b (.asserted err) { b with
        toChannel := ch
        waiting := b.waiting ++ [⟨o.letter.original, o.letter.retryQueue dead, rt.stringify data,
          some (o.letter.attempts + 1)⟩] } .sent
  | acked {ch} : Advances o b .sent { b with toChannel := ch } .finished

variable {rt dead}

theorem relay_advances {c : Ending ε} {o : Consumption Queue Content}
    {op : ChannelOp Queue Data Nat} {b : Circulation Queue Content Data ε} {p : Attempt ε}
    (allowed : (retrying rt dead o).allow p op)
    (served : c.result = .ok () ∨ ∃ data, op = .handle data) :
    Advances rt dead o b p (op.relay rt c o b).1
      ((retrying rt dead o).next p op (op.relay rt c o b).2) := by
  cases op with
  | handle data =>
    cases p with
    | handling =>
      simp only [ChannelOp.relay, ChannelOp.run]
      cases c.result with
      | ok _ => exact .returned
      | error err => exact .failed err
    | threw _ | asserted _ | sent | finished => cases allowed
  | assertQueue q =>
    have ok := served.resolve_right fun h => by obtain ⟨_, h⟩ := h; cases h
    cases p with
    | threw err =>
      simp only [ChannelOp.relay, ChannelOp.run, ok]
      exact .asserted
    | handling | asserted _ | sent | finished => cases allowed
  | sendToQueue q data x =>
    have ok := served.resolve_right fun h => by obtain ⟨_, h⟩ := h; cases h
    cases p with
    | asserted err =>
      obtain ⟨rfl, parsed, rfl⟩ := allowed
      simp only [ChannelOp.relay, ChannelOp.run, ok]
      exact .published parsed
    | handling | threw _ | sent | finished => cases allowed
  | ack tag =>
    cases p with
    | sent => exact .acked
    | handling | threw _ | asserted _ | finished => cases allowed

/-! ## What is left to do -/

def Attempt.cost (x : Letter Queue Content) : Attempt ε → Nat
  | handling => 4 + 5 * (2 - x.attempts)
  | threw _ => 3 + 5 * (2 - x.attempts)
  | asserted _ => 2 + 5 * (2 - x.attempts)
  | sent => 1
  | finished => 0

theorem cost_first (x : Letter Queue Content) :
    (Attempt.first rt x).cost x ≤ 4 + 5 * (2 - x.attempts) := by
  unfold Attempt.first
  cases rt.parse x.content with
  | ok _ => exact le_refl _
  | error _ => exact Nat.zero_le _

theorem cost_caught (x : Letter Queue Content) (err : ε) :
    (Attempt.caught rt err).cost x ≤ 3 + 5 * (2 - x.attempts) := by
  unfold Attempt.caught
  cases rt.message err with
  | ok _ => exact le_refl _
  | error _ => exact Nat.zero_le _

theorem Served.call {s : LoopState Queue Content Data ε} {i : Nat} {c : Ending ε} {o op k}
    (h : Served s (.run i c)) (hi : s.threads[i]? = some ⟨o, .call op k⟩) :
    c.result = .ok () ∨ ∃ data, op = .handle data := by
  rcases h with ok | ⟨_, data, _, hi'⟩
  · exact .inl ok
  · rw [hi] at hi'
    cases hi'
    exact .inr ⟨data, rfl⟩

variable [DecidableEq Queue]

variable (dead) in
/-- A delivery, a handler, two calls to publish the message again and one to
acknowledge it, for each attempt that is left. -/
def Letter.cost (x : Letter Queue Content) : Nat :=
  if x.queue = dead then 0 else 5 + 5 * (2 - x.attempts)

/-- A copy costs what its callback has not spent yet. -/
theorem cost_copy (x : Letter Queue Content) (content : Content) :
    Letter.cost dead ⟨x.original, x.retryQueue dead, content, some (x.attempts + 1)⟩ ≤
      5 * (2 - x.attempts) := by
  have more : (⟨x.original, x.retryQueue dead, content, some (x.attempts + 1)⟩ :
      Letter Queue Content).attempts = x.attempts + 1 := rfl
  unfold Letter.cost
  by_cases last : 2 ≤ x.attempts
  · have buried : x.retryQueue dead = dead := if_pos last
    simp only [buried, if_true, Nat.zero_le]
  · rw [more]
    split <;> omega

variable (dead) in
def Circulation.cost (b : Circulation Queue Content Data ε) : Nat :=
  (b.waiting.map (Letter.cost dead)).sum

theorem Advances.spends {o : Consumption Queue Content} {b b' : Circulation Queue Content Data ε}
    {p p' : Attempt ε} (h : Advances rt dead o b p b' p') : b'.originals = b.originals ∧
      b'.cost dead + p'.cost o.letter < b.cost dead + p.cost o.letter := by
  cases h with
  | returned | acked =>
    refine ⟨rfl, ?_⟩
    simp only [Circulation.cost, Attempt.cost]
    omega
  | failed err =>
    have caught : (Attempt.caught rt err).cost o.letter ≤ 3 + 5 * (2 - o.letter.attempts) :=
      cost_caught o.letter err
    have before : (Attempt.handling : Attempt ε).cost o.letter = 4 + 5 * (2 - o.letter.attempts) := rfl
    refine ⟨rfl, ?_⟩
    simp only [Circulation.cost, before]
    omega
  | asserted =>
    refine ⟨rfl, ?_⟩
    simp only [Attempt.cost]
    omega
  | @published ch err data parsed =>
    have copy : Letter.cost dead _ ≤ _ := cost_copy o.letter (rt.stringify data)
    refine ⟨rfl, ?_⟩
    simp only [Circulation.cost, Attempt.cost, List.map_append, List.map_cons, List.map_nil,
      List.sum_append, List.sum_singleton]
    omega

theorem publish_eq_some {q : Queue} {content : Content} {b b' : Circulation Queue Content Data ε}
    (h : b.publish dead q content = some b') : q ≠ dead ∧ b' = { b with
      originals := b.originals ++ [(q, content)]
      waiting := b.waiting ++ [⟨b.originals.length, q, content, none⟩] } := by
  unfold Circulation.publish at h
  split at h
  · cases h
  · next hq => exact ⟨hq, (Option.some.inj h).symm⟩

variable [DecidableEq Content]

theorem cost_erase {b : Circulation Queue Content Data ε} {x : Letter Queue Content}
    (hx : x ∈ b.waiting) :
    ((b.waiting.erase x).map (Letter.cost dead)).sum + x.cost dead = b.cost dead := by
  have perm := ((List.perm_cons_erase hx).map (Letter.cost dead)).sum_eq
  rw [List.map_cons, List.sum_cons] at perm
  rw [Circulation.cost, perm, Nat.add_comm]

theorem accept_eq_some {o : Consumption Queue Content} {b b' : Circulation Queue Content Data ε}
    (h : o.accept dead b = some b') : o.letter ∈ b.waiting ∧ o.letter.queue ≠ dead ∧
      ∃ ch, o.delivery.accept b.toChannel = some ch ∧
        b' = { b with toChannel := ch, waiting := b.waiting.erase o.letter } := by
  unfold Consumption.accept at h
  split at h
  · next ok =>
    obtain ⟨ch, tagged, rfl⟩ := Option.map_eq_some_iff.mp h
    exact ⟨ok.1, ok.2, ch, tagged, rfl⟩
  · cases h

/-- Every original pays for being published and for three attempts of five steps. -/
theorem retryLoop_spends : Machine.Spends (Circulation.cost dead) (fun o p => Attempt.cost o.letter p)
    (retryLoop rt dead) (retrying rt dead) (fun o => .first rt o.letter)
    (fun b => 16 * b.originals.length) Served where
  start s o sh hc accepted := by
    obtain ⟨waiting, live, ch, -, rfl⟩ := accept_eq_some accepted
    have taken : ((s.shared.waiting.erase o.letter).map (Letter.cost dead)).sum +
        o.letter.cost dead = s.shared.cost dead := cost_erase waiting
    have first : (Attempt.first rt o.letter).cost o.letter ≤ 4 + 5 * (2 - o.letter.attempts) :=
      cost_first o.letter
    have full : o.letter.cost dead = 5 + 5 * (2 - o.letter.attempts) := if_neg live
    dsimp only [Circulation.cost] at taken ⊢
    omega
  run s i o op k c sh r p hc hi allowed he := by
    obtain ⟨kept, spent⟩ := (relay_advances allowed (hc.call hi)).spends
    have ran : op.relay rt c o s.shared = (sh, r) := Option.some.inj he
    rw [ran] at kept spent
    rw [kept]
    dsimp only at spent
    omega
  env s e sh hc published := by
    obtain ⟨live, rfl⟩ := publish_eq_some published
    have full : Letter.cost dead ⟨s.shared.originals.length, e.1, e.2, none⟩ = 15 := if_neg live
    simp only [Circulation.cost, List.map_append, List.map_cons, List.map_nil, List.sum_append,
      List.sum_singleton, List.length_append, List.length_singleton, full]
    omega
  kill s i hc := hc

end

/-! ## The channel of the loop -/

section
variable {Queue Content Data ε : Type} {rt : Runtime Content Data ε} {dead : Queue} {crash : ε}

/-- What the channel sees of the loop. -/
def LoopState.channel (s : LoopState Queue Content Data ε) : ChannelState Queue Content Data Nat ε :=
  ⟨s.shared.toChannel, s.threads.map fun th => ⟨th.origin.delivery, th.prog⟩⟩

theorem relay_channel {c : Ending ε} {o : Consumption Queue Content} {op : ChannelOp Queue Data Nat}
    {b b' : Circulation Queue Content Data ε} {r : Except ε Unit} (h : op.relay rt c o b = (b', r)) :
    op.run c o.delivery b.toChannel = (b'.toChannel, r) := by
  have same : ((op.relay rt c o b).1.toChannel, (op.relay rt c o b).2) =
      op.run c o.delivery b.toChannel := by
    cases op with
    | handle _ | assertQueue _ | ack _ => rfl
    | sendToQueue q data x =>
      simp only [ChannelOp.relay, ChannelOp.run]
      cases c.result with
      | ok _ => rfl
      | error _ => rfl
  rw [← same, h]

variable [DecidableEq Queue] [DecidableEq Content]

/-- A step of the loop is one of its channel, or the channel does not see it. -/
theorem step_channel {s t : LoopState Queue Content Data ε} {l : LoopStep Queue Content ε}
    (served : Served s l) (h : (retryLoop rt dead).step crash s l = some t) :
    s.channel = t.channel ∨ ∃ l', (∀ i, l' ≠ .kill i) ∧
      (channel rt.language dead).step crash s.channel l' = some t.channel := by
  cases Machine.step_fires h with
  | @start o sh accepted =>
    obtain ⟨-, -, ch, tagged, rfl⟩ := accept_eq_some accepted
    refine .inr ⟨.start o.delivery, ?_, Option.map_eq_some_iff.mpr ⟨ch, tagged, ?_⟩⟩
    · intro i hl
      cases hl
    · simp only [LoopState.channel, List.map_append, List.map_cons, List.map_nil]
      rfl
  | @run i c o op k sh r hi he =>
    have ran := relay_channel (Option.some.inj he)
    have thread : s.channel.threads[i]? = some ⟨o.delivery, .call op k⟩ := by
      rw [LoopState.channel, List.getElem?_map, hi, Option.map_some]
    refine .inr ⟨.run i c, ?_, (Machine.step_run thread).mpr ⟨_, r, congrArg some ran, ?_⟩⟩
    · intro j hl
      cases hl
    · simp only [LoopState.channel, List.map_set]
  | env published =>
    obtain ⟨-, rfl⟩ := publish_eq_some published
    exact .inl rfl
  | kill _ => exact served.elim

/-- The callbacks of the loop are a run of the channel. -/
theorem reach_channel {s t : LoopState Queue Content Data ε}
    (h : (retryLoop rt dead).Reach crash Served s t) :
    (channel rt.language dead).Reach crash (fun _ l => ∀ i, l ≠ .kill i) s.channel t.channel := by
  induction h with
  | refl => exact .refl
  | tail _ hc hst ih =>
    rcases step_channel hc hst with same | ⟨l', alive, step⟩
    · rw [← same]
      exact ih
    · exact ih.tail alive step

end

end Pactic
