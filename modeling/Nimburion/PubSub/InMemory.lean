import Nimburion.Errors
import Nimburion.Lib.Channel
import Nimburion.Lib.Transition
import Mathlib.Data.List.Perm.Basic
import Mathlib.Data.List.Nodup
import Mathlib.Data.Int.Notation

namespace Nimburion.PubSub
open Transition

abbrev Topic := String

structure Message where
  topic : Topic
  payload : List UInt8
  headers : List (String × String)
  deriving DecidableEq, Repr

def errBusClosed : GoError := .text "pubsub bus is closed"

def errInvalidSubscriber : GoError := .text "invalid subscriber implementation"

def defaultSubscriberBuffer : ℤ := 64

structure InMemoryConfig where
  subscriberBuffer : ℤ
  store : Bool
  deriving DecidableEq, Repr

-- a topic whose last subscriber is deleted goes with it, so the two-level map is the list of its pairs
structure InMemoryBus where
  closed : Bool
  subscriberBuffer : ℕ
  subscribers : List (Topic × ℕ)
  store : Bool
  deriving DecidableEq, Repr

def newInMemoryBus (config : InMemoryConfig) : InMemoryBus :=
  let buffer := if config.subscriberBuffer ≤ 0 then defaultSubscriberBuffer
    else config.subscriberBuffer
  ⟨false,buffer.toNat,[],config.store⟩

def cloneMessage (msg : Message) : Message where
  topic := msg.topic
  payload := if 0 < msg.payload.length then msg.payload else []
  headers := if 0 < msg.headers.length then msg.headers.map fun (k,v) => (k,v) else []

@[simp]
theorem cloneMessage_eq (msg : Message) : cloneMessage msg = msg := by
  obtain ⟨topic,payload,headers⟩ := msg
  cases payload <;> cases headers <;> simp [cloneMessage]

-- a value in a channel carries the number of its Publish; the topic and what was taken out are not in the source
structure InMemorySubscriber where
  topic : Topic
  closed : Bool
  ch : Channel (ℕ × Message)
  received : List (ℕ × Message)
  deriving DecidableEq, Repr

inductive Outcome where
  | sent
  | full
  | closed
  | panicked
  deriving DecidableEq, Repr

namespace InMemorySubscriber

def close (s : InMemorySubscriber) : Option InMemorySubscriber :=
  if s.closed then some s
  else s.ch.close.map fun ch => { s with closed := true, ch := ch }

def trySend (s : InMemorySubscriber) (msg : ℕ × Message) : Outcome × InMemorySubscriber :=
  if s.closed then (.closed,s)
  else match s.ch.offer msg with
    | .sent ch => (.sent,{ s with ch := ch })
    | .full => (.full,s)
    | .panicked => (.panicked,s)

def receive (s : InMemorySubscriber) : Option InMemorySubscriber :=
  s.ch.receive.map fun (msg,ch) => { s with ch := ch, received := s.received ++ [msg] }

def accepted (s : InMemorySubscriber) : List (ℕ × Message) := s.received ++ s.ch.buffer

end InMemorySubscriber

namespace InMemoryBus

def subscribersOf (b : InMemoryBus) (topic : Topic) : List ℕ :=
  (b.subscribers.filter fun entry => entry.1 = topic).map Prod.snd

def subscribe (b : InMemoryBus) (topic : Topic) (sub : ℕ) : Except GoError InMemoryBus :=
  if b.closed then .error errBusClosed
  else .ok { b with subscribers := b.subscribers ++ [(topic,sub)] }

-- none is a Subscriber of another type; the answer says which subscriber is still to be closed
def unsubscribe (b : InMemoryBus) (topic : Topic) (sub : Option ℕ) :
    Except GoError (InMemoryBus × Option ℕ) :=
  if b.closed then .error errBusClosed
  else match sub with
    | none => .error errInvalidSubscriber
    | some memorySub =>
      if b.subscribersOf topic = [] then .ok (b,none)
      else .ok ({ b with subscribers := b.subscribers.filter (· ≠ (topic,memorySub)) },some memorySub)

-- none is a bus that was closed before
def close (b : InMemoryBus) : Option InMemoryBus :=
  if b.closed then none else some { b with closed := true, subscribers := [] }

end InMemoryBus

inductive Phase where
  | begun
  | checked
  | appended
  | sending (left : List ℕ)
  | returned (err : Option GoError) (closedThen : List Bool) (busClosed : Bool)
  deriving DecidableEq, Repr

-- `began` counts the subscribers that existed when the call began
structure Publish where
  msg : Message
  began : ℕ
  phase : Phase
  outcomes : List (ℕ × Outcome)
  deriving DecidableEq, Repr

def Publish.served (call : Publish) (sub : ℕ) (left : List ℕ) (outcome : Outcome) : Publish :=
  { call with phase := .sending left, outcomes := call.outcomes ++ [(sub,outcome)] }

-- `locked` is an Unsubscribe between its delete and its close, with the bus lock held
structure World where
  bus : InMemoryBus
  subs : List InMemorySubscriber
  publishes : List Publish
  locked : Option ℕ
  closing : List ℕ
  panicked : Bool
  deriving DecidableEq, Repr

def newWorld (config : InMemoryConfig) : World := ⟨newInMemoryBus config,[],[],none,[],false⟩

-- one label for each section between two points where another goroutine may run
inductive Label where
  | subscribe (topic : Topic)
  | publish (msg : Message) (ctxErr : Option GoError)
  | checkClosed (p : ℕ)
  | append (p : ℕ) (err : Option GoError)
  | snapshot (p : ℕ) (order : List ℕ)
  | trySend (p : ℕ)
  | finish (p : ℕ)
  | unsubscribe (topic : Topic) (sub : Option ℕ)
  | unsubscribed
  | closeBus (order : List ℕ)
  | closeNext
  | closeSubscriber (sub : ℕ)
  | receive (sub : ℕ)
  deriving DecidableEq, Repr

namespace World

def returning (w : World) (err : Option GoError) : Phase :=
  .returned err (w.subs.map InMemorySubscriber.closed) w.bus.closed

def setPhase (w : World) (p : ℕ) (call : Publish) (phase : Phase) : World :=
  { w with publishes := w.publishes.set p { call with phase := phase } }

def setSub (w : World) (sub : ℕ) (s : InMemorySubscriber) : World :=
  { w with subs := w.subs.set sub s }

def subscribe (w : World) (topic : Topic) : World :=
  match w.bus.subscribe topic w.subs.length with
  | .error _ => w
  | .ok bus => { w with
      bus := bus
      subs := w.subs ++ [⟨topic,false,Channel.make bus.subscriberBuffer,[]⟩] }

def publish (w : World) (msg : Message) (ctxErr : Option GoError) : World :=
  { w with publishes := w.publishes ++ [⟨msg,w.subs.length,
      ctxErr.elim .begun fun err => w.returning (some err),[]⟩] }

def checkClosed (w : World) : Phase :=
  if w.bus.closed then w.returning (some errBusClosed) else .checked

def append (w : World) (err : Option GoError) : Phase :=
  if w.bus.store then err.elim .appended fun err => w.returning (some err) else .appended

def setBoth (w : World) (p : ℕ) (call : Publish) (sub : ℕ) (s : InMemorySubscriber) : World :=
  { w with subs := w.subs.set sub s, publishes := w.publishes.set p call }

def trySend (w : World) (p : ℕ) (call : Publish) (sub : ℕ) (left : List ℕ)
    (s : InMemorySubscriber) : World :=
  let (outcome,s') := s.trySend (p,cloneMessage call.msg)
  { w.setBoth p (call.served sub left outcome) sub s' with
    panicked := w.panicked || outcome = .panicked }

def unsubscribe (w : World) (topic : Topic) (sub : Option ℕ) : World :=
  match w.bus.unsubscribe topic sub with
  | .error _ => w
  | .ok (bus,toClose) => { w with bus := bus, locked := toClose }

-- inMemorySubscriber.close on one of the subscribers
def close (w : World) (sub : ℕ) : World :=
  match w.subs[sub]? with
  | none => w
  | some s => match s.close with
      | some s' => w.setSub sub s'
      | none => { w with panicked := true }

def closeBus (w : World) (order : List ℕ) : World :=
  match w.bus.close with
  | none => w
  | some bus => { w with bus := bus, closing := order }

end World

def step (w : World) : Label → Option World
  | .subscribe topic => if w.locked = none then some (w.subscribe topic) else none
  | .publish msg ctxErr => some (w.publish msg ctxErr)
  | .checkClosed p => w.publishes[p]?.bind fun call =>
      if call.phase = .begun ∧ w.locked = none then some (w.setPhase p call w.checkClosed)
      else none
  | .append p err => w.publishes[p]?.bind fun call =>
      if call.phase = .checked then some (w.setPhase p call (w.append err)) else none
  | .snapshot p order => w.publishes[p]?.bind fun call =>
      -- the order of a range over the map is any
      if call.phase = .appended ∧ w.locked = none ∧
          order.Perm (w.bus.subscribersOf call.msg.topic) then
        some (w.setPhase p call (.sending order))
      else none
  | .trySend p => w.publishes[p]?.bind fun call => match call.phase with
      | .sending (sub :: left) => w.subs[sub]?.map (w.trySend p call sub left)
      | _ => none
  | .finish p => w.publishes[p]?.bind fun call =>
      if call.phase = .sending [] then some (w.setPhase p call (w.returning none)) else none
  | .unsubscribe topic sub =>
    if w.locked = none ∧ ∀ i ∈ sub, i < w.subs.length then some (w.unsubscribe topic sub) else none
  | .unsubscribed => w.locked.map fun sub => { w.close sub with locked := none }
  | .closeBus order =>
    if w.locked = none ∧ order.Perm (w.bus.subscribers.map Prod.snd) then some (w.closeBus order)
    else none
  | .closeNext => match w.closing with
      | [] => none
      | sub :: closing => some { w.close sub with closing := closing }
  | .closeSubscriber sub => if sub < w.subs.length then some (w.close sub) else none
  | .receive sub => w.subs[sub]?.bind fun s => s.receive.map (w.setSub sub)

end Nimburion.PubSub
