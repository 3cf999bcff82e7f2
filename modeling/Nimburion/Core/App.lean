import Nimburion.Lib.Transition
import Nimburion.Lib.GoTime
import Nimburion.Lib.GoText
import Nimburion.Errors

namespace Nimburion.Core.App
open GoTime GoText Transition

inductive FailureMode where
  | off
  | error
  | delay
  | other
  deriving DecidableEq, Repr

structure FailureSpec where
  mode : FailureMode
  delay : Duration
  message : String
  deriving DecidableEq, Repr

-- a hook or a runner; its function may be nil
structure Hook where
  name : String
  hasFn : Bool
  deriving DecidableEq, Repr

def defaultShutdownTimeout : Duration := 30*second

structure Application where
  shutdownTimeout : Duration
  runners : List Hook
  shutdownHooks : List Hook
  positive : 0 < shutdownTimeout

def new (shutdownTimeout : Duration) (runners shutdownHooks : List Hook) : Application where
  shutdownTimeout := if shutdownTimeout ≤ 0 then defaultShutdownTimeout else shutdownTimeout
  runners := runners
  shutdownHooks := shutdownHooks
  positive := by
    split_ifs with h
    · decide
    · exact Int.not_le.mp h

def runnerFailureTarget (name : String) : String := "runner:" ++ trimSpace name

def shutdownFailureTarget (name : String) : String := "shutdown:" ++ trimSpace name

section Injection

inductive Applied where
  | passed
  | failed (err : GoError)
  | waits (delay : Duration)
  deriving DecidableEq, Repr

-- FailureInjector.Apply up to the select of a delay
def apply : Option FailureSpec → Applied
  | none => .passed
  | some spec => match spec.mode with
      | .off => .passed
      | .delay => if spec.delay ≤ 0 then .passed else .waits spec.delay
      | .error => .failed (.text (if trimSpace spec.message = "" then "failure injection triggered"
          else trimSpace spec.message))
      | .other => .passed

-- whether a failure is injected
def active (spec : Option FailureSpec) : Bool := apply spec ≠ .passed

end Injection

section Lifecycle

inductive Goroutine where
  | started
  | delayed (deadline : Time)
  | executing
  | sent
  deriving DecidableEq, Repr

inductive ContextState where
  | live
  | canceled
  | expired
  deriving DecidableEq, Repr

def ContextState.err : ContextState → Option GoError
  | .live => none
  | .canceled => some .contextCanceled
  | .expired => some .deadlineExceeded

inductive Stage where
  | between
  | delayed (deadline : Time) (found : Option FailureSpec)
  | executing
  deriving DecidableEq, Repr

-- shutdown, with the hooks still to visit and its helper goroutine
structure Shutdown where
  began : Time
  ctx : ContextState
  helper : Bool
  left : ℕ
  stage : Stage
  errs : List GoError
  deriving DecidableEq, Repr

inductive Phase where
  | running
  | shuttingDown (s : Shutdown)
  | returned (runErr : Option GoError) (shutdownErrs : List GoError)
  deriving DecidableEq, Repr

-- one visit of a shutdown hook: what Apply found for it, and whether the hook ran
structure Visit where
  index : ℕ
  found : Option FailureSpec
  ran : Bool
  deriving DecidableEq, Repr

-- `runErr` is the error of the runners' context once it is done
structure State where
  now : Time
  callerDone : Bool
  specs : String → Option FailureSpec
  runErr : Option GoError
  goroutines : List Goroutine
  errCh : List (Option GoError)
  received : ℕ
  firstErr : Option GoError
  phase : Phase
  visits : List Visit

-- `timer` is the branch that the select of an injected delay takes
inductive Act where
  | tick (d : ℕ)
  | callerDone (err : GoError)
  | setSpec (target : String) (spec : Option FailureSpec)
  | runner (i : ℕ) (err : Option GoError)
  | resumeRunner (i : ℕ) (timer : Bool)
  | receive
  | shutdown
  | helper
  | next
  | resume (timer : Bool)
  | hookReturns (err : Option GoError)
  | finish (tracerErr : Option GoError)

variable (app : Application)

-- Run after Prepare: every runner has its goroutine
def started (now : Time) (callerErr : Option GoError) (specs : String → Option FailureSpec) :
    State where
  now := now
  callerDone := callerErr.isSome
  specs := specs
  runErr := callerErr
  goroutines := app.runners.map fun _ => .started
  errCh := []
  received := 0
  firstErr := none
  phase := .running
  visits := []

def send (c : State) (i : ℕ) (err : Option GoError) : State :=
  { c with goroutines := c.goroutines.set i .sent, errCh := c.errCh ++ [err] }

def runnerInjectionError (runner : Hook) (e : GoError) : GoError :=
  .wrapped ("runner " ++ quote runner.name ++ " failure injection failed: ") e

-- err is what the runner's function returns
def stepRunner (c : State) (i : ℕ) (err : Option GoError) : Option State :=
  match app.runners[i]?,c.goroutines[i]? with
  | some runner,some .started =>
      if !runner.hasFn then some (send c i none)
      else match apply (c.specs (runnerFailureTarget runner.name)) with
        | .passed => some { c with goroutines := c.goroutines.set i .executing }
        | .waits delay => some { c with goroutines := c.goroutines.set i (.delayed (c.now+delay)) }
        | .failed e => some (send c i (some (runnerInjectionError runner e)))
  | some _,some .executing => some (send c i err)
  | _,_ => none

def resumeRunner (c : State) (i : ℕ) (timer : Bool) : Option State :=
  match app.runners[i]?,c.goroutines[i]? with
  | some runner,some (.delayed deadline) =>
      if timer then
        if deadline ≤ c.now then some { c with goroutines := c.goroutines.set i .executing } else none
      else c.runErr.map fun e => send c i (some (runnerInjectionError runner e))
  | _,_ => none

def receive (c : State) : Option State :=
  match c.phase,c.errCh with
  | .running,err :: rest =>
      if err.isSome && c.firstErr.isNone then
        some { c with
          errCh := rest
          received := c.received+1
          firstErr := err
          runErr := c.runErr.or (some .contextCanceled) }
      else some { c with errCh := rest, received := c.received+1 }
  | _,_ => none

def opened (now : Time) : Shutdown where
  began := now
  ctx := .live
  helper := true
  left := app.shutdownHooks.length
  stage := .between
  errs := []

def beginShutdown (c : State) : Option State :=
  match c.phase with
  | .running =>
      if c.received = app.runners.length then
        some { c with phase := .shuttingDown (opened app c.now) }
      else none
  | _ => none

def cancel (s : Shutdown) : Shutdown :=
  { s with helper := false, ctx := if s.ctx = .live then .canceled else s.ctx }

-- the helper's select; with both channels ready cancel() does nothing
def stepHelper (c : State) (s : Shutdown) : Option State :=
  if s.helper && (c.callerDone || s.ctx ≠ .live) then
    some { c with phase := .shuttingDown (cancel s) }
  else none

def visit (c : State) (s : Shutdown) (v : Visit) (stage : Stage) (errs : List GoError) : State :=
  { c with
    phase := .shuttingDown { s with left := v.index, stage := stage, errs := s.errs ++ errs }
    visits := c.visits ++ [v] }

def injectionError (hook : Hook) (e : GoError) : GoError :=
  .wrapped ("graceful_shutdown failure injection for hook " ++ quote hook.name ++ " failed: ") e

-- the loop body of shutdown, up to the hook's call
def nextHook (c : State) (s : Shutdown) : Option State :=
  match s.stage,s.left with
  | .between,i+1 => app.shutdownHooks[i]?.map fun hook =>
      let found := c.specs (shutdownFailureTarget hook.name)
      if !hook.hasFn then visit c s ⟨i,none,false⟩ .between []
      else match apply found with
        | .passed => visit c s ⟨i,found,true⟩ .executing []
        | .failed e => visit c s ⟨i,found,false⟩ .between [injectionError hook e]
        | .waits delay =>
            { c with phase := .shuttingDown { s with stage := .delayed (c.now+delay) found } }
  | _,_ => none

-- the select of an injected delay
def resumeHook (c : State) (timer : Bool) (s : Shutdown) : Option State :=
  match s.stage,s.left with
  | .delayed deadline found,i+1 => app.shutdownHooks[i]?.bind fun hook =>
      if timer then
        if deadline ≤ c.now then some (visit c s ⟨i,found,true⟩ .executing []) else none
      else s.ctx.err.map fun e => visit c s ⟨i,found,false⟩ .between [injectionError hook e]
  | _,_ => none

def hookError (hook : Hook) (e : GoError) : GoError :=
  .wrapped ("graceful_shutdown hook " ++ quote hook.name ++ " failed: ") e

def hookReturns (c : State) (err : Option GoError) (s : Shutdown) : Option State :=
  match s.stage,app.shutdownHooks[s.left]? with
  | .executing,some hook =>
      let errs := s.errs ++ (err.map (hookError hook)).toList
      some { c with phase := .shuttingDown { s with stage := .between, errs := errs } }
  | _,_ => none

def finish (c : State) (tracerErr : Option GoError) (s : Shutdown) : Option State :=
  if s.stage = .between && s.left = 0 then
    let errs := s.errs ++ (tracerErr.map (GoError.wrapped "shutdown tracer provider: ")).toList
    some { c with phase := .returned c.firstErr errs }
  else none

def inShutdown (c : State) (f : Shutdown → Option State) : Option State :=
  match c.phase with
  | .shuttingDown s => f s
  | _ => none

def expire (now : Time) (s : Shutdown) : Shutdown :=
  if s.ctx = .live ∧ s.began+app.shutdownTimeout ≤ now then { s with ctx := .expired } else s

def tick (c : State) (d : ℕ) : State :=
  { c with
    now := c.now+d
    phase := match c.phase with
      | .shuttingDown s => .shuttingDown (expire app (c.now+d) s)
      | phase => phase }

def step (c : State) : Act → Option State
  | .tick d => some (tick app c d)
  | .callerDone err => some { c with callerDone := true, runErr := c.runErr.or (some err) }
  | .setSpec target spec =>
      some { c with specs := fun t => if t = trimSpace target then spec else c.specs t }
  | .runner i err => stepRunner app c i err
  | .resumeRunner i timer => resumeRunner app c i timer
  | .receive => receive c
  | .shutdown => beginShutdown app c
  | .helper => inShutdown c (stepHelper c)
  | .next => inShutdown c (nextHook app c)
  | .resume timer => inShutdown c (resumeHook app c timer)
  | .hookReturns err => inShutdown c (hookReturns app c err)
  | .finish tracerErr => inShutdown c (finish c tracerErr)

end Lifecycle

end Nimburion.Core.App
