import Nimburion.Lib.Interaction
import Nimburion.Jobs.Job

namespace Nimburion.Jobs.RuntimeBackend
open Interaction GoText GoTime

structure Config where
  bufferSize : Int
  dlqSuffix : String
  closeRuntime : Bool
  deriving DecidableEq, Repr

def Config.normalize (c : Config) : Config :=
  { c with
    bufferSize := if c.bufferSize ≤ 0 then 128 else c.bufferSize
    dlqSuffix := if trimSpace c.dlqSuffix = "" then defaultDLQSuffix else c.dlqSuffix }

-- the numbers are addresses: of a subscription, of a delivery, of a timer
structure LeaseState where
  lease : Lease
  delivery : ℕ
  job : Job
  timer : ℕ
  deriving DecidableEq

inductive Settler where
  | ack
  | nack
  | moveToDLQ
  | expiry
  | close
  deriving DecidableEq, Repr

inductive Looked where
  | existing (sub : ℕ)
  | created (sub : ℕ)

-- one operation for each critical section, select statement or call of the runtime
inductive Op where
  | now
  | randomToken
  | lookupSubscription (queue : String)
  | subscribe (sub : ℕ) (queue : String)
  | cancel (sub : ℕ)
  | dropSubscription (queue : String)
  | receive (sub : ℕ)
  | afterFunc (leaseFor : Duration) (token : String)
  | stopTimer (timer : ℕ)
  | fire (timer : ℕ)
  | registerLease (token : String) (state : LeaseState)
  | popLease (settler : Settler) (token : String)
  | renewLease (token : String) (leaseFor : Duration)
  | close
  | complete (delivery : ℕ) (err : Option GoError)
  | sleep (delay : Duration)
  | enqueue (replaced : Option ℕ) (job : Job)
  | unsubscribe (queue : String)
  | closeRuntime
  | healthCheck
  | offer (sub : ℕ) (job : Option Job)
  | await (sub delivery : ℕ)

abbrev Ans : Op → Type
  | .now => Time
  | .randomToken => String
  | .lookupSubscription _ => Except GoError Looked
  | .subscribe .. => Except GoError Unit
  | .cancel _ => Unit
  | .dropSubscription _ => Unit
  | .receive _ => Except GoError (ℕ × Option Job)
  | .afterFunc .. => ℕ
  | .stopTimer _ => Unit
  | .fire _ => String
  | .registerLease .. => Bool
  | .popLease .. => Option LeaseState
  | .renewLease .. => Bool
  | .close => Option (List (String × ℕ) × List (String × LeaseState))
  | .complete .. => Unit
  | .sleep _ => Except GoError Unit
  | .enqueue .. => Except GoError Unit
  | .unsubscribe _ => Except GoError Unit
  | .closeRuntime => Except GoError Unit
  | .healthCheck => Except GoError Unit
  | .offer .. => Except GoError ℕ
  | .await .. => Except GoError (Option GoError)

abbrev M := Prog Op Ans GoError

section Programs

variable (b : Config)

def now : M Time := Prog.perform Op.now

def orNow (t : Time) : M Time := if isZero t then now else pure t

def complete (delivery : ℕ) (err : Option GoError) : M Unit :=
  Prog.perform (Op.complete delivery err)

def enqueue (job : Job) : M Unit := do
  let r ← Prog.perform (Op.enqueue none job)
  Prog.liftExcept r

def ensureSubscription (queue : String) : M ℕ := do
  let looked ← Prog.perform (Op.lookupSubscription queue)
  match looked with
  | .error e => Prog.fail e
  | .ok (.existing sub) => pure sub
  | .ok (.created sub) => do
      let r ← Prog.perform (Op.subscribe sub queue)
      match r with
      | .ok _ => pure sub
      | .error e => do
          Prog.perform (Op.cancel sub)
          Prog.perform (Op.dropSubscription queue)
          Prog.fail (.join (.jobs .retryable ("subscribe queue " ++ quote queue ++ " failed")) e)

def backendClosed : GoError := .jobs .closed "runtime backend is closed"

def lease (queue : String) (leaseFor : Duration) (delivery : ℕ) (job : Job) : M (Job × Lease) := do
  let token ← Prog.perform Op.randomToken
  let now ← now
  let lease : Lease := ⟨trimSpace job.id,token,queue,now+leaseFor,job.attempt⟩
  let timer ← Prog.perform (Op.afterFunc leaseFor token)
  let registered ← Prog.perform (Op.registerLease token ⟨lease,delivery,job,timer⟩)
  if registered then pure (job,lease)
  else do
    Prog.perform (Op.stopTimer timer)
    complete delivery (some backendClosed)
    Prog.fail backendClosed

def reserve (queue : String) (leaseFor : Duration) : M (Job × Lease) := do
  let queue := trimSpace queue
  if queue = "" then Prog.fail (.jobs .invalidArgument "queue is required")
  else do
    let leaseFor := if leaseFor ≤ 0 then defaultLeaseTTL else leaseFor
    let sub ← ensureSubscription queue
    let received ← Prog.perform (Op.receive sub)
    match received with
    | .error e => Prog.fail e
    | .ok (_,none) => Prog.fail (.jobs .retryable "received empty delivery")
    | .ok (delivery,some job) => RuntimeBackend.lease queue leaseFor delivery job

def popLease (settler : Settler) : Option Lease → M LeaseState
  | none => Prog.fail (.jobs .invalidArgument "lease is required")
  | some lease =>
      if trimSpace lease.token = "" then
        Prog.fail (.jobs .invalidArgument "lease token is required")
      else do
        let popped ← Prog.perform (Op.popLease settler (trimSpace lease.token))
        match popped with
        | none => Prog.fail (.jobs .notFound "lease not found")
        | some state => pure state

def ack (lease : Option Lease) : M Unit := do
  let state ← popLease .ack lease
  complete state.delivery none

def replace (delivery : ℕ) (job : Job) (msg : String) : M Unit := do
  let r ← Prog.perform (Op.enqueue (some delivery) job)
  match r with
  | .error e => do
      complete delivery (some e)
      Prog.fail (.join (.jobs .retryable msg) e)
  | .ok _ => complete delivery none

def waitUntil (runAt : Time) : M (Except GoError Unit) := do
  let now ← now
  if now < runAt then Prog.perform (Op.sleep (runAt-now)) else pure (.ok ())

def nack (lease : Option Lease) (nextRunAt : Time) (reason : Option GoError) : M Unit := do
  let state ← popLease .nack lease
  let failedAt ← now
  let runAt ← orNow nextRunAt
  let waited ← waitUntil runAt
  match waited with
  | .error e => do
      complete state.delivery (some e)
      Prog.fail e
  | .ok _ =>
      replace state.delivery (retryJob state.job reason failedAt runAt) "enqueue retry job failed"

def renew (lease : Option Lease) (leaseFor : Duration) : M Unit :=
  match lease with
  | none => Prog.fail (.jobs .invalidArgument "lease token is required")
  | some lease =>
      if trimSpace lease.token = "" then
        Prog.fail (.jobs .invalidArgument "lease token is required")
      else do
        let leaseFor := if leaseFor ≤ 0 then defaultLeaseTTL else leaseFor
        let renewed ← Prog.perform (Op.renewLease (trimSpace lease.token) leaseFor)
        if renewed then pure () else Prog.fail (.jobs .notFound "lease not found")

def sourceQueue (job : Job) (lease : Option Lease) : String :=
  if trimSpace job.queue = "" then lease.elim "" fun l => trimSpace l.queue
  else trimSpace job.queue

def dlqJob (job : Job) (sourceQueue : String) (reason : Option GoError) (failedAt : Time) : Job :=
  { job with
    queue := trimSpace sourceQueue ++ b.dlqSuffix
    headers := dlqHeaders job.headers sourceQueue reason failedAt }

def moveToDLQ (lease : Option Lease) (reason : Option GoError) : M Unit := do
  let state ← popLease .moveToDLQ lease
  let failedAt ← now
  replace state.delivery (dlqJob b state.job (sourceQueue state.job lease) reason failedAt)
    "enqueue dlq job failed"

def releaseLeases : List (String × LeaseState) → M Unit
  | [] => pure ()
  | (_,state) :: leases => do
      Prog.perform (Op.stopTimer state.timer)
      complete state.delivery (some (.jobs .closed "runtime backend closed"))
      releaseLeases leases

def unsubscribeAll : List (String × ℕ) → M (List GoError)
  | [] => pure []
  | (queue,sub) :: subs => do
      Prog.perform (Op.cancel sub)
      let r ← Prog.perform (Op.unsubscribe queue)
      let errs ← unsubscribeAll subs
      match r with
      | .ok _ => pure errs
      | .error e => pure (.join (.jobs .retryable ("unsubscribe " ++ quote queue ++ " failed")) e ::
          errs)

def closeRuntime : M (List GoError) :=
  if b.closeRuntime then do
    let r ← Prog.perform Op.closeRuntime
    match r with
    | .ok _ => pure []
    | .error e => pure [.join (.jobs .retryable "close runtime failed") e]
  else pure []

def joined : List GoError → M Unit
  | [] => pure ()
  | e :: errs => Prog.fail (errs.foldl .join e)

def close : M Unit := do
  let taken ← Prog.perform Op.close
  match taken with
  | none => pure ()
  | some (subs,leases) => do
      releaseLeases leases
      let errs ← unsubscribeAll subs
      let errs' ← closeRuntime b
      joined (errs ++ errs')

def expireLease (timer : ℕ) : M Unit := do
  let token ← Prog.perform (Op.fire timer)
  let popped ← Prog.perform (Op.popLease .expiry token)
  match popped with
  | none => pure ()
  | some state => complete state.delivery (some (.jobs .conflict "lease expired"))

def healthCheck : M Unit := do
  let r ← Prog.perform Op.healthCheck
  Prog.liftExcept r

-- the callback that ensureSubscription hands to the runtime
def handle (sub : ℕ) (job : Option Job) : M Unit := do
  let offered ← Prog.perform (Op.offer sub job)
  match offered with
  | .error e => Prog.fail e
  | .ok delivery => do
      let r ← Prog.perform (Op.await sub delivery)
      match r with
      | .error e => Prog.fail e
      | .ok none => pure ()
      | .ok (some e) => Prog.fail e

end Programs

inductive Call where
  | enqueue (job : Job)
  | reserve (queue : String) (leaseFor : Duration)
  | ack (lease : Option Lease)
  | nack (lease : Option Lease) (nextRunAt : Time) (reason : Option GoError)
  | renew (lease : Option Lease) (leaseFor : Duration)
  | moveToDLQ (lease : Option Lease) (reason : Option GoError)
  | healthCheck
  | close
  | expireLease (timer : ℕ)
  | handle (sub : ℕ) (job : Option Job)
  deriving DecidableEq

inductive Reply where
  | nil
  | reserved (job : Job) (lease : Lease)
  deriving DecidableEq

def program (b : Config) : Call → M Reply
  | .enqueue job => do enqueue job; pure .nil
  | .reserve queue leaseFor => do
      let r ← reserve queue leaseFor
      pure (.reserved r.1 r.2)
  | .ack lease => do ack lease; pure .nil
  | .nack lease nextRunAt reason => do nack lease nextRunAt reason; pure .nil
  | .renew lease leaseFor => do renew lease leaseFor; pure .nil
  | .moveToDLQ lease reason => do moveToDLQ b lease reason; pure .nil
  | .healthCheck => do healthCheck; pure .nil
  | .close => do close b; pure .nil
  | .expireLease timer => do expireLease timer; pure .nil
  | .handle sub job => do handle sub job; pure .nil

structure Subscription where
  queue : String
  cancelled : Bool
  deliveries : List ℕ

-- `done` is a one-shot channel: sync.Once lets one send through, the callback reads it once
structure Delivery where
  job : Option Job
  done : Option (Option GoError)
  deriving DecidableEq

structure Timer where
  token : String
  left : Int
  armed : Bool

inductive Effect where
  | settled (settler : Settler) (token : String) (delivery : ℕ)
  | replaced (delivery : ℕ) (job : Job)
  deriving DecidableEq

structure Heap where
  closed : Bool
  subscriptions : List (String × ℕ)
  subs : List Subscription
  leases : List (String × LeaseState)
  deliveries : List Delivery
  timers : List Timer
  issued : List String
  effects : List Effect

def Heap.empty : Heap := ⟨false,[],[],[],[],[],[],[]⟩

inductive Outcome where
  | done
  | failed (e : GoError)
  | lostReply (e : GoError)
  | at (t : Time)
  | token (s : String)
  | order (subs : List (String × ℕ)) (leases : List (String × LeaseState))

def reply (s : Heap) : Outcome → Option (Except GoError Unit × Heap)
  | .done => some (.ok (),s)
  | .failed e => some (.error e,s)
  | _ => none

def hexToken (s : String) : Bool :=
  s ≠ "" && s.toList.all fun c => c.isDigit || ('a' ≤ c && c ≤ 'f')

namespace Heap

variable (s : Heap)

def startTimer (leaseFor : Duration) (token : String) : Heap :=
  { s with timers := s.timers ++ [⟨token,leaseFor,true⟩] }

def stopTimer (timer : ℕ) : Heap :=
  { s with timers := s.timers.modify timer fun t => { t with armed := false } }

def dropLease (token : String) : Heap :=
  { s with leases := s.leases.filter fun e => e.1 ≠ token }

def complete (delivery : ℕ) (err : Option GoError) : Heap :=
  { s with deliveries := s.deliveries.modify delivery fun d =>
      { d with done := d.done.or (some err) } }

def popLease (settler : Settler) (token : String) : Option LeaseState × Heap :=
  match s.leases.lookup token with
  | none => (none,s)
  | some state =>
      let s' := { s.dropLease token with
        effects := .settled settler token state.delivery :: s.effects }
      (some state,if settler = .expiry then s' else s'.stopTimer state.timer)

def renewLease (token : String) (leaseFor : Duration) (now : Time) : Bool × Heap :=
  match s.leases.lookup token with
  | none => (false,s)
  | some state =>
      let s' := (s.stopTimer state.timer).startTimer leaseFor token
      (true,{ s' with leases := s.leases.map fun e => if e.1 = token then (e.1,{ e.2 with
          lease := { e.2.lease with expireAt := now+leaseFor }
          timer := s.timers.length }) else e })

def tick (elapsed : ℕ) : Heap :=
  { s with timers := s.timers.map fun t => { t with left := t.left-elapsed } }

end Heap

def exec (b : Config) (s : Heap) (op : Op) (o : Outcome) : Option (Ans op × Heap) :=
  match op with
  | .now => match o with
      | .at t => some (t,s)
      | _ => none
  -- sixteen random bytes, taken not to repeat
  | .randomToken => match o with
      | .token t => if hexToken t ∧ t ∉ s.issued then
          some (t,{ s with issued := t :: s.issued }) else none
      | _ => none
  | .lookupSubscription queue =>
      if s.closed then some (.error backendClosed,s)
      else match s.subscriptions.lookup queue with
      | some sub => some (.ok (.existing sub),s)
      | none => some (.ok (.created s.subs.length),{ s with
          subscriptions := (queue,s.subs.length) :: s.subscriptions
          subs := s.subs ++ [⟨queue,false,[]⟩] })
  | .subscribe _ _ => reply s o
  | .cancel sub => some ((),{ s with
      subs := s.subs.modify sub fun u => { u with cancelled := true } })
  | .dropSubscription queue => some ((),{ s with
      subscriptions := s.subscriptions.filter fun e => e.1 ≠ queue })
  | .receive sub => match o with
      | .failed e => some (.error e,s)
      | .done => match s.subs[sub]? with
        | none => none
        | some u => match u.deliveries with
          | [] => none
          | d :: ds => match s.deliveries[d]? with
            | none => none
            | some delivery => some (.ok (d,delivery.job),{ s with
                subs := s.subs.set sub { u with deliveries := ds } })
      | _ => none
  | .afterFunc leaseFor token => some (s.timers.length,s.startTimer leaseFor token)
  | .stopTimer timer => some ((),s.stopTimer timer)
  | .fire timer => match s.timers[timer]? with
      | none => none
      | some t => if t.armed ∧ t.left ≤ 0 then some (t.token,s.stopTimer timer) else none
  | .registerLease token state =>
      if s.closed then some (false,s)
      else some (true,{ s with leases := (token,state) :: s.leases.filter fun e => e.1 ≠ token })
  | .popLease settler token => some (s.popLease settler token)
  | .renewLease token leaseFor => match o with
      | .at t => some (s.renewLease token leaseFor t)
      | _ => none
  | .close =>
      if s.closed then some (none,s)
      else match o with
      | .order subs leases =>
          if subs.Perm s.subscriptions ∧ leases.Perm s.leases then
            some (some (subs,leases),{ s with
              closed := true
              subscriptions := []
              leases := []
              effects := leases.map (fun e => Effect.settled .close e.1 e.2.delivery) ++
                s.effects })
          else none
      | _ => none
  | .complete delivery err => some ((),s.complete delivery err)
  | .sleep _ => reply s o
  | .enqueue replaced job =>
      let s' := { s with effects := (replaced.map (Effect.replaced · job)).toList ++ s.effects }
      match o with
      | .done => some (.ok (),s')
      | .failed e => some (.error e,s)
      | .lostReply e => some (.error e,s')
      | _ => none
  | .unsubscribe _ => reply s o
  | .closeRuntime => reply s o
  | .healthCheck => reply s o
  | .offer sub job => match s.subs[sub]? with
      | none => none
      | some u => match o with
        | .failed e => some (.error e,s)
        | .done => if (u.deliveries.length : Int) < b.bufferSize then
            some (.ok s.deliveries.length,{ s with
              subs := s.subs.set sub { u with deliveries := u.deliveries ++ [s.deliveries.length] }
              deliveries := s.deliveries ++ [⟨job,none⟩] })
          else none
        | _ => none
  | .await _ delivery => match o with
      | .failed e => some (.error e,s)
      | .done => match s.deliveries[delivery]? with
        | none => none
        | some d => match d.done with
          | none => none
          | some result => some (.ok result,s)
      | _ => none

abbrev System := Machine Ans GoError Heap Call Reply Outcome ℕ

def system (c : Config) : System where
  program := program c.normalize
  exec := exec c.normalize
  env := Heap.tick

abbrev State := Interaction.Config Ans GoError Heap Call Reply

abbrev Act := Action Call Outcome ℕ

def start : State := ⟨.empty,[]⟩

end Nimburion.Jobs.RuntimeBackend
