import Nimburion.Errors
import Nimburion.EventBus.Adapters
import Nimburion.Lib.GoText

namespace Nimburion.Jobs
open GoText GoTime
open EventBus (Headers)

def headerJobFailureReason : String := "job_failure_reason"
def headerJobFailedAt : String := "job_failed_at"
def headerJobOriginalQueue : String := "job_original_queue"

def defaultLeaseTTL : Duration := 30 * second
def defaultDLQSuffix : String := ".dlq"

structure Job where
  id : String
  name : String
  queue : String
  payload : List UInt8
  headers : Headers
  contentType : String
  tenantID : String
  correlationID : String
  idempotencyKey : String
  partitionKey : String
  runAt : Time
  attempt : Int64
  maxAttempts : Int64
  createdAt : Time
  deriving DecidableEq

structure Lease where
  jobID : String
  token : String
  queue : String
  expireAt : Time
  attempt : Int64
  deriving DecidableEq, Repr

namespace Job

def validate (j : Job) : Except GoError Unit :=
  if trimSpace j.id = "" then .error (.jobs .validation "job id is required")
  else if trimSpace j.name = "" then .error (.jobs .validation "job name is required")
  else if trimSpace j.queue = "" then .error (.jobs .validation "job queue is required")
  else if j.payload.length = 0 then .error (.jobs .validation "job payload is required")
  else if j.attempt < 0 then .error (.jobs .validation "job attempt must be >= 0")
  else if j.maxAttempts < 0 then .error (.jobs .validation "job max attempts must be >= 0")
  else if 0 < j.maxAttempts ∧ j.maxAttempts < j.attempt then
    .error (.jobs .validation "job attempt cannot exceed max attempts")
  else .ok ()

structure Valid (j : Job) : Prop where
  id : trimSpace j.id ≠ ""
  name : trimSpace j.name ≠ ""
  queue : trimSpace j.queue ≠ ""
  payload : j.payload ≠ []
  attempt : 0 ≤ j.attempt
  maxAttempts : 0 ≤ j.maxAttempts
  within : 0 < j.maxAttempts → j.attempt ≤ j.maxAttempts

theorem validate_ok_iff (j : Job) : j.validate = .ok () ↔ j.Valid := by
  unfold validate
  constructor
  · intro h
    split_ifs at h with h1 h2 h3 h4 h5 h6 h7
    simp only [List.length_eq_zero_iff] at h4
    refine ⟨h1,h2,h3,h4,Int64.not_lt.mp h5,Int64.not_lt.mp h6,?_⟩
    intro hm
    exact Int64.not_lt.mp fun hlt => h7 ⟨hm,hlt⟩
  · intro h
    have h5 : ¬ j.attempt < 0 := Int64.not_lt.mpr h.attempt
    have h6 : ¬ j.maxAttempts < 0 := Int64.not_lt.mpr h.maxAttempts
    have h7 : ¬ (0 < j.maxAttempts ∧ j.maxAttempts < j.attempt) := fun hm =>
      Int64.not_lt.mpr (h.within hm.1) hm.2
    simp [h.id,h.name,h.queue,h.payload,h5,h6,h7]

structure Work where
  id : String
  name : String
  payload : List UInt8
  contentType : String
  tenantID : String
  correlationID : String
  idempotencyKey : String
  partitionKey : String
  maxAttempts : Int64
  createdAt : Time
  deriving DecidableEq

def work (j : Job) : Work :=
  ⟨j.id,j.name,j.payload,j.contentType,j.tenantID,j.correlationID,j.idempotencyKey,
    j.partitionKey,j.maxAttempts,j.createdAt⟩

end Job

def failureHeaders (headers : Headers) (reason : Option GoError) (failedAt : Time) : Headers :=
  ((reason.elim headers fun e => headers.insert headerJobFailureReason e.message)).insert
    headerJobFailedAt (formatRFC3339Nano failedAt)

def retryJob (job : Job) (reason : Option GoError) (failedAt runAt : Time) : Job :=
  { job with
    attempt := job.attempt+1
    headers := failureHeaders job.headers reason failedAt
    runAt := runAt }

def dlqHeaders (headers : Headers) (originalQueue : String) (reason : Option GoError)
    (failedAt : Time) : Headers :=
  let headers := (headers.insert headerJobOriginalQueue originalQueue).insert headerJobFailedAt
    (formatRFC3339Nano failedAt)
  reason.elim headers fun e => headers.insert headerJobFailureReason e.message

end Nimburion.Jobs
