import Pactic.Lib.Machine
import Pactic.Model.Rabbit

/-! # The callback on whatever is delivered

`consume` in full: its callback takes any bytes and any `x-attempts` header, and
its handler may do anything, also acknowledge. What parsing and the arithmetic
on a header do is left open; each may throw. The channel is the machine of the
callbacks in progress, and a handler is one call of it, which ends as the
schedule says. -/
namespace Pactic
open Resumption

/-- What the callback takes from the language. -/
structure Language (Content Data Header ε : Type) where
  parse : Content → Except ε Data         -- `JSON.parse(msg.content.toString())`
  orZero : Option Header → Header         -- `headers['x-attempts'] || 0`
  message : ε → Except ε Unit             -- `err.message`: nothing can be read of a thrown `null`
  isLast : Header → Except ε Bool         -- `attempts >= 2`
  next : Header → Except ε Header         -- `attempts + 1`

section
variable {Op : Type} {Res : Op → Type} {Queue Content Data Header ε : Type}

/-- The callback of `queue`. Neither the parsing nor the catch block is itself
inside a `try`. -/
def callback (js : Language Content Data Header ε) (dead queue : Queue)
    (handler : Data → Prog Op Res ε Unit)
    (sendToQueue : Queue → Data → Header → Prog Op Res ε Unit) (ack : Prog Op Res ε Unit)
    (content : Content) (xAttempts : Option Header) : Prog Op Res ε Unit := do
  let data ← .ret (js.parse content)
  let attempts := js.orZero xAttempts
  tryCatch (handler data) fun err => do
    .ret (js.message err)
    if ← .ret (js.isLast attempts) then do
      sendToQueue dead data (← .ret (js.next attempts))
      ack
    else do
      sendToQueue queue data (← .ret (js.next attempts))
      ack

end

/-- What the service itself publishes and throws: payloads, numbers, errors. -/
def service.language : Language Payload Payload Nat Err where
  parse := .ok
  orZero x := x.getD 0
  message _ := .ok ()
  isLast n := .ok (2 ≤ n)
  next n := .ok (n + 1)

/-- The callback around the handlers of the service is this one. -/
theorem consume_eq_callback (queue : Queue) (handler : Proc Unit) (msg : Message) :
    consume queue handler msg = callback service.language .walletFundingDead queue
      (fun _ => handler) (fun q data x => sendToQueue q data (some x)) (call (.rabbit (.ack msg)))
      msg.data msg.xAttempts := by
  have start {α β : Type} (a : α) (f : α → Proc β) : ((.ret (.ok a) : Proc α) >>= f) = f a := rfl
  refine congrArg (tryCatch handler) (funext fun err => ?_)
  simp only [service.language, start, decide_eq_true_eq]
  rfl

/-! ## The channel -/

/-- The channel numbers its deliveries: `tag` is the `deliveryTag`. -/
structure Delivery (Queue Content Header : Type) where
  tag : Nat
  queue : Queue
  content : Content
  xAttempts : Option Header

inductive ChannelOp (Queue Data Header : Type) where
  | handle (data : Data)
  | assertQueue (queue : Queue)
  | sendToQueue (queue : Queue) (data : Data) (xAttempts : Header)
  | ack (tag : Nat)

/-- How a call ends, and which deliveries a handler acknowledges by itself
before it ends. -/
structure Ending (ε : Type) where
  result : Except ε Unit := .ok ()
  acks : List Nat := []

/-- `handlerAcks` are the acknowledgements by handlers, `acks` those by the
callbacks. `endings` records how the handler of a delivery ended; nothing reads
it. -/
structure Channel (Queue Data Header ε : Type) where
  delivered : Nat := 0
  published : List (Queue × Data × Header) := []
  acks : List Nat := []
  handlerAcks : List Nat := []
  endings : Nat → Option (Except ε Unit) := fun _ => none

/-- How often the delivery was acknowledged. -/
def Channel.acked {Queue Data Header ε : Type} (ch : Channel Queue Data Header ε) (tag : Nat) : Nat :=
  (ch.acks ++ ch.handlerAcks).count tag

section
variable {Queue Content Data Header ε : Type}

abbrev ChannelProc (Queue Data Header ε : Type) :=
  Prog (ChannelOp Queue Data Header) (fun _ => Unit) ε

/-- `sendToQueue` of the service, on any data. -/
def ChannelProc.sendToQueue (queue : Queue) (data : Data) (xAttempts : Header) :
    ChannelProc Queue Data Header ε Unit :=
  tryCatch (do
    Prog.perform (.assertQueue queue)
    Prog.perform (.sendToQueue queue data xAttempts))
  fun _ => pure ()

def Delivery.program (js : Language Content Data Header ε) (dead : Queue)
    (d : Delivery Queue Content Header) : ChannelProc Queue Data Header ε Unit :=
  callback js dead d.queue (fun data => Prog.perform (.handle data)) ChannelProc.sendToQueue
    (Prog.perform (.ack d.tag)) d.content d.xAttempts

/-- The next delivery, of anything to any queue. -/
def Delivery.accept (d : Delivery Queue Content Header) (ch : Channel Queue Data Header ε) :
    Option (Channel Queue Data Header ε) :=
  if d.tag = ch.delivered then some { ch with delivered := ch.delivered + 1 } else none

/-- An acknowledgement on an open channel does not fail. -/
def ChannelOp.run (c : Ending ε) (d : Delivery Queue Content Header) :
    ChannelOp Queue Data Header → Channel Queue Data Header ε →
      Channel Queue Data Header ε × Except ε Unit
  | handle _, ch => ({ ch with
      handlerAcks := ch.handlerAcks ++ c.acks
      endings := Function.update ch.endings d.tag (some c.result) }, c.result)
  | assertQueue _, ch => (ch, c.result)
  | sendToQueue q data x, ch => match c.result with
    | .ok () => ({ ch with published := ch.published ++ [(q, data, x)] }, .ok ())
    | .error e => (ch, .error e)
  | ack tag, ch => ({ ch with acks := ch.acks ++ [tag] }, .ok ())

def channel (js : Language Content Data Header ε) (dead : Queue) :
    Machine (ChannelOp Queue Data Header) (fun _ => Unit) ε Unit (Delivery Queue Content Header)
      (Channel Queue Data Header ε) (Ending ε) Empty where
  program := Delivery.program js dead
  accept := Delivery.accept
  exec c _ d op ch := some (op.run c d ch)
  env e _ := e.elim
  abort _ ch := ch

abbrev ChannelState (Queue Content Data Header ε : Type) :=
  Config (ChannelOp Queue Data Header) (fun _ => Unit) ε Unit (Delivery Queue Content Header)
    (Channel Queue Data Header ε)

/-- The channel as it is opened. -/
def ChannelState.fresh : ChannelState Queue Content Data Header ε := ⟨{}, []⟩

abbrev ChannelStep (Queue Content Header ε : Type) :=
  Label (Delivery Queue Content Header) (Ending ε) Empty

end

end Pactic
