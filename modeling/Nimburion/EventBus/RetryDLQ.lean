import Nimburion.EventBus.Adapters
import Nimburion.Lib.Interaction
import Nimburion.Reliability.Retry
import Nimburion.Resilience.CircuitBreaker
import Nimburion.Lib.GoText
import Nimburion.Lib.RFC3339

namespace Nimburion.EventBus.RetryDLQ
open Interaction GoText GoTime Decimal Resilience

structure Config where
  maxRetries : Int64
  initialBackoff : Duration
  maxBackoff : Duration
  attemptTimeout : Duration
  circuitBreakerFailures : Int
  circuitBreakerReset : Duration
  dlqTopicSuffix : String
  deriving DecidableEq, Repr

def Config.normalize (c : Config) : Config where
  maxRetries := if c.maxRetries ≤ 0 then 5 else c.maxRetries
  initialBackoff := if c.initialBackoff ≤ 0 then second else c.initialBackoff
  maxBackoff := if c.maxBackoff ≤ 0 then 60*second else c.maxBackoff
  attemptTimeout := if c.attemptTimeout ≤ 0 then 30*second else c.attemptTimeout
  circuitBreakerFailures := if c.circuitBreakerFailures ≤ 0 then 5 else c.circuitBreakerFailures
  circuitBreakerReset := if c.circuitBreakerReset ≤ 0 then 30*second else c.circuitBreakerReset
  dlqTopicSuffix := if c.dlqTopicSuffix = "" then ".dlq" else c.dlqTopicSuffix

structure DLQPayload where
  originalTopic : String
  originalID : String
  originalKey : String
  originalBody : List UInt8
  originalHeader : Headers
  failureReason : String
  stackTrace : String
  attemptCount : Int64
  failedAt : Time
  deriving DecidableEq

inductive Op where
  | now
  | handle (message : Message) (timeout : Duration)
  | wait (delay : Duration)
  | quarantine (record : Retry.QuarantineRecord)
  | stack
  | marshal (payload : DLQPayload)
  | publish (topic : String) (message : Message)

abbrev Ans : Op → Type
  | .now => Time
  | .handle .. => Attempt
  | .wait _ => Except GoError Unit
  | .quarantine _ => Except GoError Unit
  | .stack => String
  | .marshal _ => Except GoError (List UInt8)
  | .publish .. => Except GoError Unit

abbrev M := Prog Op Ans GoError

def now : M Time := Prog.perform Op.now

-- fmt prints a nil error under %w as %!w(<nil>) and wraps nothing
def wrapOrNil (pre : String) : Option GoError → GoError
  | some err => .wrapped pre err
  | none => .text (pre ++ "%!w(<nil>)")

def wrapBoth (pre mid : String) (lastErr : Option GoError) (err : GoError) : GoError :=
  match lastErr with
  | some last => .pair pre mid last err
  | none => .wrapped (pre ++ "%!w(<nil>)" ++ mid) err

section Programs

variable (cfg : Config) (consumerTopic : String) (message : Message)

def budget : Retry.Budget where
  maxAttempts := cfg.maxRetries+1
  initialBackoff := cfg.initialBackoff
  maxBackoff := cfg.maxBackoff
  attemptTimeout := cfg.attemptTimeout

def execute (cb : CircuitBreaker) : M (Option GoError × CircuitBreaker) := do
  let t ← now
  match cb.canExecute t with
  | (false,cb) => pure (some errCircuitBreakerOpen,cb)
  | (true,cb) => do
      let attempt ← Prog.perform (Op.handle message (budget cfg).attemptTimeout)
      match withTimeout attempt with
      | some err => do
          let failedAt ← now
          pure (some err,cb.recordFailure failedAt)
      | none => pure (none,cb.recordSuccess)

inductive Ended where
  | processed
  | canceled (err : GoError)
  | gaveUp (lastErr : Option GoError) (attemptsUsed : Int64)

-- the loop counter's room is the first argument: Decide stops it at the last attempt
def retryLoop : ℕ → Int64 → CircuitBreaker → Option GoError → Int64 → M Ended
  | 0, _, _, lastErr, attemptsUsed => pure (.gaveUp lastErr attemptsUsed)
  | room+1, attempt, cb, _, _ => do
      let (lastErr,cb) ← execute cfg message cb
      match lastErr with
      | none => pure .processed
      | some err =>
          let decision := Retry.decide (Retry.classify (some err)) attempt (budget cfg).maxAttempts
            (budget cfg) ⟨true,false⟩
          if decision.disposition ≠ .delayedRetry then pure (.gaveUp (some err) attempt)
          else do
            let waited ← Prog.perform (Op.wait decision.delay)
            match waited with
            | .error e => pure (.canceled e)
            | .ok _ => retryLoop room (attempt+1) cb (some err) attempt

def sendToDLQ (dlqTopic originalTopic : String) (failure : Option GoError) (attempts : Int64) :
    M Unit := do
  let failure := failure.getD (.text "unknown failure")
  let stack ← Prog.perform Op.stack
  let failedAt ← now
  let encoded ← Prog.perform (Op.marshal ⟨originalTopic,message.id,message.key,message.value,
    message.headers,failure.message,stack,attempts,failedAt⟩)
  match encoded with
  | .error e => Prog.fail (.wrapped "marshal dlq payload failed: " e)
  | .ok value => do
      let timestamp ← now
      let published ← Prog.perform (Op.publish dlqTopic {
        id := message.id
        key := message.key
        value := value
        headers := (Finmap.singleton "dlq" "true").insert "original_topic" originalTopic
        contentType := "application/json"
        timestamp := timestamp })
      match published with
      | .error e => Prog.fail (.wrapped "publish dlq message failed: " e)
      | .ok _ => pure ()

def quarantineRecord (decision : Retry.Decision) (lastErr : Option GoError) (occurredAt : Time) :
    Retry.QuarantineRecord where
  scope := "eventbus"
  key := consumerTopic ++ ":" ++ message.id
  classification := decision.classification
  reason := lastErr.elim "" GoError.message
  attempt := decision.attempt
  maxAttempts := decision.maxAttempts
  occurredAt := occurredAt
  metadata := [("topic",consumerTopic),("message_id",message.id)]

def quarantined (lastErr : Option GoError) (attemptsUsed : Int64) : GoError :=
  wrapOrNil ("handler quarantined after " ++ itoa attemptsUsed ++ " attempts: ") lastErr

def deadLettered (lastErr : Option GoError) (attemptsUsed : Int64) : GoError :=
  wrapOrNil ("handler failed after " ++ itoa attemptsUsed ++ " attempts: ") lastErr

def route (quarantineSink : Bool) (lastErr : Option GoError) (attemptsUsed : Int64) : M Unit := do
  let finalDecision := Retry.decide (Retry.classify lastErr) attemptsUsed (budget cfg).maxAttempts
    (budget cfg) ⟨true,quarantineSink⟩
  if finalDecision.disposition = .quarantine then do
    let occurredAt ← now
    let r ← Prog.perform
      (Op.quarantine (quarantineRecord consumerTopic message finalDecision lastErr occurredAt))
    match r with
    | .error e =>
        Prog.fail (wrapBoth "handler failed after retries (" ") and quarantine failed: " lastErr e)
    | .ok _ => Prog.fail (quarantined lastErr attemptsUsed)
  else do
    let sent ← Prog.attempt
      (sendToDLQ message (consumerTopic ++ cfg.dlqTopicSuffix) consumerTopic lastErr attemptsUsed)
    match sent with
    | .error e =>
        Prog.fail (wrapBoth "handler failed after retries (" ") and dlq publish failed: " lastErr e)
    | .ok _ => Prog.fail (deadLettered lastErr attemptsUsed)

def consumeWithRetry (quarantineSink : Bool) : M Unit :=
  if consumerTopic = "" then Prog.fail (.text "consumer topic is required")
  else do
    let ended ← retryLoop cfg message (budget cfg).maxAttempts.toInt.toNat 1
      (newCircuitBreaker cfg.circuitBreakerFailures cfg.circuitBreakerReset) none 0
    match ended with
    | .processed => pure ()
    | .canceled e => Prog.fail e
    | .gaveUp lastErr attemptsUsed =>
        route cfg consumerTopic message quarantineSink lastErr attemptsUsed

end Programs

abbrev Trace := List (Event Ans)

abbrev Oracle := Trace → (op : Op) → Ans op

structure Consumer where
  config : Config
  consumerTopic : String
  quarantineSink : Bool
  deriving DecidableEq, Repr

def deliver (c : Consumer) (message : Message) (o : Oracle) : Except GoError Unit × Trace :=
  Prog.eval (Prog.observe o)
    (consumeWithRetry c.config.normalize c.consumerTopic message c.quarantineSink) []

-- RabbitMQ's consumeLoop seen from one message: it is acked on nil and requeued on an error,
-- each redelivery meets an environment of its own
def consumeLoop (c : Consumer) (topic : String) (d : RabbitMQ.Publishing) : List Oracle → List Trace
  | [] => []
  | o :: redeliveries =>
      let r := deliver c (RabbitMQ.consume topic d) o
      r.2 :: match r.1 with
        | .error _ => consumeLoop c topic d redeliveries
        | .ok _ => []

end Nimburion.EventBus.RetryDLQ
