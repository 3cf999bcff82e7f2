import Nimburion.Coordination.Lock
import Nimburion.Scheduler.Task

namespace Nimburion.Scheduler
open Interaction GoText GoTime LeaseTable

def defaultLockTTL : Duration := 30*second

def misfireGraceWindow : Duration := 500*millisecond

structure RuntimeConfig where
  defaultLockTTL : Duration

def RuntimeConfig.normalize (c : RuntimeConfig) : RuntimeConfig :=
  if c.defaultLockTTL ≤ 0 then ⟨Scheduler.defaultLockTTL⟩ else c

structure RunLease where
  key : String
  token : ℕ
  deriving DecidableEq, Repr

-- `scheduled` is the run a lock or a job is for; neither the provider nor the queue sees it
inductive Op where
  | now
  | sleep (nextRun : Time)
  | acquire (scheduled : Time) (key : String) (ttl : Duration)
  | randomSchedulerID
  | enqueue (scheduled : Time) (job : Jobs.Job)
  | stopRenewal (lease : RunLease)
  | release (lease : RunLease)

-- sleep answers false when the context is done, stopRenewal with what the renewal ended with
abbrev Ans : Op → Type
  | .now => Time
  | .sleep _ => Bool
  | .acquire .. => Except GoError (Option RunLease)
  | .randomSchedulerID => String
  | .enqueue .. => Except GoError Unit
  | .stopRenewal _ => Except GoError Unit
  | .release _ => Except GoError Unit

abbrev M := Prog Op Ans GoError

def unix (t : Time) : Int := t/second

def errorsJoin (rs : List (Except GoError Unit)) : Option GoError :=
  (rs.filterMap fun
    | .ok _ => none
    | .error e => some e).foldl (fun acc e => some (acc.elim e fun a => .join a e)) none

def scheduledJob (task : Task) (runAt : Time) (id : String) (createdAt : Time) : Jobs.Job where
  id := id
  name := trimSpace task.jobName
  queue := trimSpace task.queue
  payload := if task.payload = [] then "{}".toUTF8.toList else task.payload
  headers := (task.headers.insert "scheduler_task" task.name).insert "scheduler_run_at"
    (formatRFC3339Nano runAt)
  contentType := ""
  tenantID := trimSpace task.tenantID
  correlationID := ""
  idempotencyKey := if trimSpace task.idempotencyKey = "" then task.name ++ ":" ++ toString (unix runAt)
    else trimSpace task.idempotencyKey
  partitionKey := ""
  runAt := runAt
  attempt := 0
  maxAttempts := 0
  createdAt := createdAt

def lockKey (task : Task) (runAt : Time) : String :=
  "scheduler:" ++ task.name ++ ":" ++ toString (unix runAt)

def dispatchTask (cfg : RuntimeConfig) (task : Task) (scheduled runAt : Time) : M Unit := do
  let lockTTL := if task.lockTTL ≤ 0 then cfg.defaultLockTTL else task.lockTTL
  let acquired ← Prog.perform (Op.acquire scheduled (lockKey task runAt) lockTTL)
  match acquired with
  | .error e => Prog.fail (.join (schedulerError errRetryable "acquire lock failed") e)
  | .ok none => pure ()
  | .ok (some lease) => do
      let id ← Prog.perform Op.randomSchedulerID
      let createdAt ← Prog.perform Op.now
      let enqueued ← Prog.perform (Op.enqueue scheduled (scheduledJob task runAt id createdAt))
      let renewed ← Prog.perform (Op.stopRenewal lease)
      let released ← Prog.perform (Op.release lease)
      match errorsJoin [enqueued,renewed,released] with
      | some dispatchErr => Prog.fail dispatchErr
      | none => pure ()

section Loop

variable (lib : Library) (task : Task) (cfg : RuntimeConfig)

-- the loop stopped after `rounds` passes; every error is logged and dropped
def runTaskLoop : ℕ → M Unit
  | 0 => pure ()
  | rounds+1 => do
      let now ← Prog.perform Op.now
      match task.nextRun lib now with
      | none => pure ()
      | some (.error _) => pure ()
      | some (.ok nextRun) => do
          let fired ← Prog.perform (Op.sleep nextRun)
          if fired then do
            let actualNow ← Prog.perform Op.now
            if actualNow > nextRun+misfireGraceWindow ∧ task.misfirePolicy = .skip then
              runTaskLoop rounds
            else do
              let dispatchAt := if actualNow > nextRun ∧ task.misfirePolicy = .fireOnce then actualNow
                else nextRun
              let _ ← (Prog.attempt (dispatchTask cfg task nextRun dispatchAt) : M (Except GoError Unit))
              runTaskLoop rounds
          else pure ()

end Loop

structure Cluster where
  clock : Time
  locks : Table String ℕ
  nextToken : ℕ
  queue : List (Time × Jobs.Job)

inductive Outcome where
  | done
  | lostRequest (e : GoError)
  | lostReply (e : GoError)
  | cancelled
  | id (s : String)

inductive Event where
  | advance (n : ℕ)
  | renew (lease : RunLease) (ttl : Duration)

namespace Cluster

variable (s : Cluster)

def alive (row : Row ℕ) : Bool := s.clock < row.expiresAt

def acquire (key : String) (ttl : Duration) : Option RunLease × Cluster :=
  let r := claim s.alive s.locks key s.nextToken (s.clock+ttl)
  (if r.1 then some ⟨key,s.nextToken⟩ else none,{ s with locks := r.2, nextToken := s.nextToken+1 })

def release (lease : RunLease) : Except GoError Unit × Cluster :=
  let r := drop s.alive s.locks lease.key lease.token
  (if r.1 then .ok () else
    .error (Coordination.coordinationError Coordination.errConflict "lock release rejected"),
    { s with locks := r.2 })

def enqueue (scheduled : Time) (job : Jobs.Job) : Cluster :=
  { s with queue := (scheduled,job) :: s.queue }

def event : Event → Cluster
  | .advance n => { s with clock := s.clock+n }
  | .renew lease ttl =>
      { s with locks := (extend s.alive s.locks lease.key lease.token (some (s.clock+ttl))).2 }

end Cluster

def exec (s : Cluster) (op : Op) (o : Outcome) : Option (Ans op × Cluster) :=
  match op with
  | .now => some (s.clock,s)
  | .sleep nextRun => match o with
      | .cancelled => some (false,s)
      | _ => if nextRun ≤ s.clock then some (true,s) else none
  | .acquire _ key ttl => match o with
      | .done => some (.ok (s.acquire key ttl).1,(s.acquire key ttl).2)
      | .lostRequest e => some (.error e,s)
      | .lostReply e => some (.error e,(s.acquire key ttl).2)
      | _ => none
  | .randomSchedulerID => match o with
      | .id x => some (x,s)
      | _ => none
  | .enqueue scheduled job => match o with
      | .done => some (.ok (),s.enqueue scheduled job)
      | .lostRequest e => some (.error e,s)
      | .lostReply e => some (.error e,s.enqueue scheduled job)
      | _ => none
  | .stopRenewal _ => match o with
      | .done => some (.ok (),s)
      | .lostRequest e => some (.error e,s)
      | _ => none
  | .release lease => match o with
      | .done => some ((s.release lease).1,(s.release lease).2)
      | .lostRequest e => some (.error e,s)
      | .lostReply e => some (.error e,(s.release lease).2)
      | _ => none

-- one instance's loop for the task
structure Instance where
  config : RuntimeConfig
  rounds : ℕ

def instances (lib : Library) (task : Task) :
    Machine Ans GoError Cluster Instance Unit Outcome Event where
  program := fun inst => runTaskLoop lib task inst.config.normalize inst.rounds
  exec := exec
  env := Cluster.event

end Nimburion.Scheduler
