import Nimburion.Lib.Interaction
import Nimburion.Reliability.Retry
import Nimburion.Jobs.Job

namespace Nimburion.Jobs.Worker
open Interaction GoText GoTime

def defaultWorkerMaxAttempts : Int64 := 5
def defaultWorkerInitialBackoff : Duration := second
def defaultWorkerMaxBackoff : Duration := 60 * second
def defaultWorkerAttemptTimeout : Duration := 30 * second

structure WorkerConfig where
  leaseTTL : Duration
  retry : Retry.Budget
  deadLetterEnabled : Bool
  quarantine : Bool
  deriving DecidableEq, Repr

def WorkerConfig.normalize (c : WorkerConfig) : WorkerConfig :=
  { c with
    leaseTTL := if c.leaseTTL ≤ 0 then defaultLeaseTTL else c.leaseTTL
    retry := c.retry.normalize defaultWorkerMaxAttempts defaultWorkerInitialBackoff
      defaultWorkerMaxBackoff defaultWorkerAttemptTimeout }

inductive Op where
  | executeHandler (job : Job)
  | startLeaseRenewal (lease : Lease)
  | stopRenew
  | renewDone
  | now
  | ack (lease : Lease)
  | nack (lease : Lease) (nextRunAt : Time) (reason : GoError)
  | moveToDLQ (lease : Lease) (reason : GoError)
  | quarantine (record : Retry.QuarantineRecord)

abbrev Ans : Op → Type
  | .executeHandler _ => Option GoError
  | .startLeaseRenewal _ => Unit
  | .stopRenew => Unit
  | .renewDone => Option GoError
  | .now => Time
  | .ack _ => Except GoError Unit
  | .nack .. => Except GoError Unit
  | .moveToDLQ .. => Except GoError Unit
  | .quarantine _ => Except GoError Unit

abbrev M := Prog Op Ans GoError

def orFail (kind : JobsErrorKind) (msg : String) : Except GoError Unit → M Unit
  | .ok _ => pure ()
  | .error e => Prog.fail (.join (.jobs kind msg) e)

section Programs

variable (cfg : WorkerConfig)

def effectiveMaxAttempts (job : Job) : Int64 :=
  let maxAttempts := if 0 < job.maxAttempts then job.maxAttempts else cfg.retry.maxAttempts
  if maxAttempts ≤ 0 then 1 else maxAttempts

def policy : Retry.Policy := ⟨cfg.deadLetterEnabled,cfg.quarantine⟩

def decision (job : Job) (failure : GoError) : Retry.Decision :=
  Retry.decide (Retry.classify (some failure)) (job.attempt+1) (effectiveMaxAttempts cfg job)
    { cfg.retry with maxAttempts := effectiveMaxAttempts cfg job } (policy cfg)

def quarantineRecord (job : Job) (failure : GoError) (d : Retry.Decision) (now : Time) :
    Retry.QuarantineRecord where
  scope := "jobs"
  key := job.queue ++ ":" ++ job.id
  classification := d.classification
  reason := failure.message
  attempt := d.attempt
  maxAttempts := d.maxAttempts
  occurredAt := now
  metadata := [("queue",job.queue),("job_id",job.id),("job_name",job.name)]

def moveToDLQ (lease : Lease) (failure : GoError) : M Unit := do
  let moved ← Prog.perform (Op.moveToDLQ lease failure)
  orFail .retryable "dlq move failed" moved

def droppedError (maxAttempts : Int64) (failure : GoError) : GoError :=
  .join (.jobs .conflict ("job dropped after " ++ toString maxAttempts.toInt ++ " attempts"))
    failure

def handleFailure (job : Job) (lease : Lease) (failure : GoError) : M Unit :=
  let d := decision cfg job failure
  match d.disposition with
  | .delayedRetry => do
      let now ← Prog.perform Op.now
      let nacked ← Prog.perform (Op.nack lease (now+d.delay) failure)
      orFail .retryable "nack failed" nacked
  | .quarantine =>
      if cfg.quarantine then do
        let now ← Prog.perform Op.now
        let stored ← Prog.perform (Op.quarantine (quarantineRecord job failure d now))
        orFail .retryable "quarantine failed" stored
        let acked ← Prog.perform (Op.ack lease)
        orFail .retryable "ack failed after quarantine" acked
      else moveToDLQ lease failure
  | .deadLetter => moveToDLQ lease failure
  | .drop | .immediateRetry => do
      let acked ← Prog.perform (Op.ack lease)
      orFail .retryable "ack failed while dropping job" acked
      Prog.fail (droppedError (effectiveMaxAttempts cfg job) failure)

def joinErrors : Option GoError → Option GoError → Option GoError
  | some execErr, some renewErr => some (.join execErr renewErr)
  | none, renewErr => renewErr
  | execErr, none => execErr

def missingHandler (job : Job) : GoError :=
  .tagged .poison (.jobs .notFound ("handler not registered for job " ++ job.name.quote))

def process (registered : String → Bool) (job : Job) (lease : Lease) : M Unit :=
  if registered (trimSpace job.name) then do
    Prog.perform (Op.startLeaseRenewal lease)
    let execErr ← Prog.perform (Op.executeHandler job)
    Prog.perform Op.stopRenew
    let renewErr ← Prog.perform Op.renewDone
    match joinErrors execErr renewErr with
    | some failure => handleFailure cfg job lease failure
    | none => do
        let acked ← Prog.perform (Op.ack lease)
        orFail .retryable "ack failed" acked
  else handleFailure cfg job lease (missingHandler job)

end Programs

theorem decision_delayedRetry_iff (cfg : WorkerConfig) (job : Job) (failure : GoError) :
    (decision cfg job failure).disposition = .delayedRetry ↔
      Retry.classify (some failure) = .retryable ∧
        job.attempt+1 < effectiveMaxAttempts cfg job := by
  rw [decision,Retry.decide_delayedRetry_iff]
  have hpos : ¬ effectiveMaxAttempts cfg job ≤ 0 := by
    unfold effectiveMaxAttempts
    dsimp only
    split_ifs <;> simp_all
  rw [if_neg hpos]

theorem decision_ne_immediateRetry (cfg : WorkerConfig) (job : Job) (failure : GoError) :
    (decision cfg job failure).disposition ≠ .immediateRetry := by
  unfold decision Retry.decide
  cases Retry.classify (some failure) <;> dsimp only <;> split_ifs <;> simp

theorem quarantine_enabled {cfg : WorkerConfig} {job : Job} {failure : GoError}
    (h : (decision cfg job failure).disposition = .quarantine) : cfg.quarantine = true := by
  by_contra hq
  revert h
  unfold decision Retry.decide policy
  cases Retry.classify (some failure) <;> dsimp only <;> split_ifs <;> simp_all

def plainWorker : WorkerConfig := ⟨0,⟨0,0,0,0⟩,true,false⟩

def mailAt (attempt maxAttempts : Int64) : Job :=
  ⟨"j1","mail","q",[1],∅,"","","","","",0,attempt,maxAttempts,0⟩

end Nimburion.Jobs.Worker
