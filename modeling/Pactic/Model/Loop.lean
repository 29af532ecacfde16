import Pactic.Model.Channel

/-! # The retry loop

What a callback publishes waits to be delivered like any other message, so
`consume` is a loop that runs through the broker. A waiting message is delivered
at any time, in any order, and nothing is delivered twice. Nothing consumes the
dead letters. -/
namespace Pactic
open Resumption

/-- What the callback takes from JavaScript where it has written every header
that it reads. What is printed parses to what it was. -/
structure Runtime (Content Data ε : Type) where
  parse : Content → Except ε Data         -- `JSON.parse(msg.content.toString())`
  stringify : Data → Content              -- `Buffer.from(JSON.stringify(data))`
  message : ε → Except ε Unit             -- `err.message`
  parse_stringify : ∀ data, parse (stringify data) = .ok data

/-- A message the broker has: `original` is the message it is a copy of, by the
number it was published under. No program reads it. -/
structure Letter (Queue Content : Type) where
  original : Nat
  queue : Queue
  content : Content
  xAttempts : Option Nat
  deriving DecidableEq

/-- The delivery of a message. -/
structure Consumption (Queue Content : Type) where
  tag : Nat
  letter : Letter Queue Content

/-- `originals` are the messages that were published without an `x-attempts`
header, `waiting` those not yet delivered. `results` records how the handlers
ended, each with the original it was about; nothing reads it. -/
structure Circulation (Queue Content Data ε : Type) extends Channel Queue Data Nat ε where
  originals : List (Queue × Content) := []
  waiting : List (Letter Queue Content) := []
  results : List (Nat × Except ε Unit) := []

section
variable {Queue Content Data ε : Type}

/-- `headers['x-attempts']` is absent or a number. -/
def Runtime.language (rt : Runtime Content Data ε) : Language Content Data Nat ε where
  parse := rt.parse
  orZero x := x.getD 0
  message := rt.message
  isLast n := .ok (2 ≤ n)
  next n := .ok (n + 1)

/-- With payloads, and errors thrown, this is what the callbacks of the service use. -/
example : (Runtime.mk Except.ok id (fun _ => .ok ()) fun _ => rfl).language = service.language := rfl

def Consumption.delivery (o : Consumption Queue Content) : Delivery Queue Content Nat :=
  ⟨o.tag, o.letter.queue, o.letter.content, o.letter.xAttempts⟩

/-- A call of the channel. What is published waits from now on. -/
def ChannelOp.relay (rt : Runtime Content Data ε) (c : Ending ε) (o : Consumption Queue Content)
    (op : ChannelOp Queue Data Nat) (b : Circulation Queue Content Data ε) :
    Circulation Queue Content Data ε × Except ε Unit :=
  let (ch, r) := op.run c o.delivery b.toChannel
  let b := { b with toChannel := ch }
  match op, r with
  | handle _, r => ({ b with results := b.results ++ [(o.letter.original, r)] }, r)
  | sendToQueue q data x, .ok () =>
    ({ b with waiting := b.waiting ++ [⟨o.letter.original, q, rt.stringify data, some x⟩] },
      .ok ())
  | _, r => (b, r)

variable [DecidableEq Queue]

/-- Somebody publishes a message without a header, to a queue that is consumed. -/
def Circulation.publish (dead queue : Queue) (content : Content)
    (b : Circulation Queue Content Data ε) : Option (Circulation Queue Content Data ε) :=
  if queue = dead then none
  else some { b with
    originals := b.originals ++ [(queue, content)]
    waiting := b.waiting ++ [⟨b.originals.length, queue, content, none⟩] }

variable [DecidableEq Content]

def Consumption.accept (dead : Queue) (o : Consumption Queue Content)
    (b : Circulation Queue Content Data ε) : Option (Circulation Queue Content Data ε) :=
  if o.letter ∈ b.waiting ∧ o.letter.queue ≠ dead then
    (o.delivery.accept b.toChannel).map fun ch =>
      { b with toChannel := ch, waiting := b.waiting.erase o.letter }
  else none

def retryLoop (rt : Runtime Content Data ε) (dead : Queue) :
    Machine (ChannelOp Queue Data Nat) (fun _ => Unit) ε Unit (Consumption Queue Content)
      (Circulation Queue Content Data ε) (Ending ε) (Queue × Content) where
  program o := o.delivery.program rt.language dead
  accept := Consumption.accept dead
  exec c _ o op b := some (op.relay rt c o b)
  env e := Circulation.publish dead e.1 e.2
  abort _ b := b

end

section
variable {Queue Content Data ε : Type}

abbrev LoopState (Queue Content Data ε : Type) :=
  Config (ChannelOp Queue Data Nat) (fun _ => Unit) ε Unit (Consumption Queue Content)
    (Circulation Queue Content Data ε)

abbrev LoopStep (Queue Content ε : Type) :=
  Label (Consumption Queue Content) (Ending ε) (Queue × Content)

/-- Before anything is published. -/
def LoopState.fresh : LoopState Queue Content Data ε := ⟨{}, []⟩

/-- No process dies and `sendToQueue` does not fail. A handler ends as it likes. -/
def Served (s : LoopState Queue Content Data ε) : LoopStep Queue Content ε → Prop
  | .run i c => c.result = .ok () ∨ ∃ o data k, s.threads[i]? = some ⟨o, .call (.handle data) k⟩
  | .kill _ => False
  | _ => True

/-! ## What became of a message -/

namespace Circulation
variable (b : Circulation Queue Content Data ε) (rt : Runtime Content Data ε) (a : Nat)

/-- How the handlers that were given message `a` ended. -/
def outcomes : List (Except ε Unit) := (b.results.filter fun r => r.1 = a).map Prod.snd

/-- All three handlers threw. -/
def Hopeless : Prop := ∃ e₁ e₂ e₃, b.outcomes a = [.error e₁, .error e₂, .error e₃]

/-- Something can be read of what the third handler threw, if it did. -/
def LastReadable : Prop := ∀ err, (b.outcomes a)[2]? = some (.error err) → rt.message err = .ok ()

variable [DecidableEq Queue] (dead : Queue)

/-- What was put into the dead-letter queue for message `a`. -/
def deadLetters : List Content :=
  (b.waiting.filter fun x => x.original = a ∧ x.queue = dead).map Letter.content

/-- The payload of message `a` was put into the dead-letter queue once if the
message is hopeless, and nothing was otherwise. -/
def BuriesHopeless : Prop :=
  (b.Hopeless a → ∃ q content, b.originals[a]? = some (q, content) ∧
    (b.deadLetters a dead).map rt.parse = [rt.parse content]) ∧
  (¬ b.Hopeless a → b.deadLetters a dead = [])

end Circulation

/-- No callback is in progress and only dead letters are waiting. -/
def LoopState.Drained (s : LoopState Queue Content Data ε) (dead : Queue) : Prop :=
  s.idle = true ∧ ∀ x ∈ s.shared.waiting, x.queue = dead

end

end Pactic
