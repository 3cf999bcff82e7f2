import Nimburion.Errors
import Nimburion.Lib.GoTime

namespace Nimburion.Resilience
open GoTime

inductive State where
  | closed
  | open_
  | halfOpen
  deriving DecidableEq, Repr

def errCircuitBreakerOpen : GoError := .text "circuit breaker is open"

structure CircuitBreaker where
  maxFailures : Int
  timeout : Duration
  state : State
  failures : Int
  successes : Int
  lastFailTime : Time
  deriving DecidableEq, Repr

def newCircuitBreaker (maxFailures : Int) (timeout : Duration) : CircuitBreaker :=
  ⟨maxFailures,timeout,.closed,0,0,zeroTime⟩

namespace CircuitBreaker

def canExecute (cb : CircuitBreaker) (now : Time) : Bool × CircuitBreaker :=
  match cb.state with
  | .closed => (true,cb)
  | .open_ =>
      if cb.timeout < now-cb.lastFailTime then
        (true,{ cb with state := .halfOpen, successes := 0 })
      else (false,cb)
  | .halfOpen => (true,cb)

def recordFailure (cb : CircuitBreaker) (now : Time) : CircuitBreaker :=
  match cb.state with
  | .halfOpen => { cb with lastFailTime := now, state := .open_, failures := 0, successes := 0 }
  | _ =>
      { cb with
        lastFailTime := now
        failures := cb.failures+1
        state := if cb.maxFailures ≤ cb.failures+1 then .open_ else cb.state }

def recordSuccess (cb : CircuitBreaker) : CircuitBreaker :=
  match cb.state with
  | .halfOpen => { cb with state := .closed, failures := 0, successes := 0 }
  | .closed => { cb with failures := 0 }
  | .open_ => cb

end CircuitBreaker

def errTimeout : GoError := .text "operation timed out"

-- which branch of WithTimeout's select is taken
inductive Attempt where
  | finished (err : Option GoError)
  | timedOut
  | canceled (err : GoError)
  deriving DecidableEq, Repr

-- the select took timeoutCtx.Done() and `err` is what timeoutCtx.Err() then says
def Attempt.ended (err : GoError) : Attempt :=
  if GoError.wraps .deadlineExceeded err then .timedOut else .canceled err

def withTimeout : Attempt → Option GoError
  | .finished err => err
  | .timedOut => some errTimeout
  | .canceled err => some err

end Nimburion.Resilience
