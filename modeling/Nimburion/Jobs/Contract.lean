import Nimburion.EventBus.Adapters
import Nimburion.Jobs.Job
import Nimburion.Lib.RFC3339

namespace Nimburion.Jobs
open GoText GoTime Decimal EventBus

def defaultContentType : String := "application/json"

def headerJobID : String := "job_id"
def headerJobName : String := "job_name"
def headerJobQueue : String := "job_queue"
def headerJobTenantID : String := "job_tenant_id"
def headerJobCorrelationID : String := "job_correlation_id"
def headerJobIdempotencyKey : String := "job_idempotency_key"
def headerJobRunAt : String := "job_run_at"
def headerJobAttempt : String := "job_attempt"
def headerJobMaxAttempts : String := "job_max_attempts"

def header (headers : Headers) (key : String) : String := (headers.lookup key).getD ""

def jobPartitionKey (tenantID jobName jobID : String) : String :=
  let tenantID := trimSpace tenantID
  let jobName := trimSpace jobName
  let jobID := trimSpace jobID
  if tenantID ≠ "" ∧ jobName ≠ "" then tenantID ++ ":" ++ jobName
  else if jobName ≠ "" ∧ jobID ≠ "" then jobName ++ ":" ++ jobID
  else if jobID ≠ "" then jobID
  else jobName

-- the compatibility header is only written where the job has none
def withIdentity (key compat value : String) (headers : Headers) : Headers :=
  if trimSpace value = "" then headers
  else
    let headers := headers.insert key (trimSpace value)
    if header headers compat = "" then headers.insert compat (trimSpace value) else headers

def Job.encodedRunAt (j : Job) (createdAt : Time) : Time :=
  if isZero j.runAt then createdAt else j.runAt

def Job.routingHeaders (j : Job) (createdAt : Time) : Headers :=
  (((((j.headers.insert headerJobID (trimSpace j.id)).insert headerJobName
    (trimSpace j.name)).insert headerJobQueue (trimSpace j.queue)).insert headerJobRunAt
    (formatRFC3339Nano (j.encodedRunAt createdAt))).insert headerJobAttempt
    (itoa j.attempt)).insert headerJobMaxAttempts (itoa j.maxAttempts)

def Job.encodedHeaders (j : Job) (createdAt : Time) : Headers :=
  let headers := withIdentity headerJobTenantID "tenant_id" j.tenantID (j.routingHeaders createdAt)
  let headers := withIdentity headerJobCorrelationID "correlation_id" j.correlationID headers
  if trimSpace j.idempotencyKey = "" then headers
  else headers.insert headerJobIdempotencyKey (trimSpace j.idempotencyKey)

def Job.toEventBusMessage (now : Time) (j : Job) : Except GoError Message :=
  match j.validate with
  | .error e => .error e
  | .ok _ =>
      let createdAt := if isZero j.createdAt then now else j.createdAt
      .ok {
        id := trimSpace j.id
        key := if trimSpace j.partitionKey = "" then jobPartitionKey j.tenantID j.name j.id
          else trimSpace j.partitionKey
        value := j.payload
        headers := j.encodedHeaders createdAt
        contentType := if trimSpace j.contentType = "" then defaultContentType
          else trimSpace j.contentType
        timestamp := createdAt }

def firstNonEmpty (a b : String) : String :=
  if trimSpace a ≠ "" then a else if trimSpace b ≠ "" then b else ""

def invalidHeader (key : String) (err : GoError) : GoError :=
  .join (.jobs .validation ("invalid " ++ key ++ " header")) err

def atoiError (s : String) : NumError → GoError
  | .badSyntax => .text ("strconv.Atoi: parsing " ++ quote s ++ ": invalid syntax")
  | .outOfRange => .text ("strconv.Atoi: parsing " ++ quote s ++ ": value out of range")

def headerInt (headers : Headers) (key : String) : Except GoError Int64 :=
  let value := trimSpace (header headers key)
  if value = "" then .ok 0
  else match atoi value with
  | .ok n => .ok n
  | .error e => .error (invalidHeader key (atoiError value e))

def headerTime (headers : Headers) (key : String) : Except GoError Time :=
  let value := trimSpace (header headers key)
  if value = "" then .ok zeroTime
  else match parseRFC3339Nano value with
  | some t => .ok t
  | none => .error (invalidHeader key (.text ("parsing time " ++ quote value)))

def decodedRunAt (now createdAt runAt : Time) : Time :=
  let runAt := if isZero runAt then createdAt else runAt
  if isZero createdAt ∧ isZero runAt then now else runAt

def decodedJob (now : Time) (msg : Message) (fallbackQueue : String) (runAt : Time)
    (attempt maxAttempts : Int64) : Job where
  id := trimSpace msg.id
  name := trimSpace (header msg.headers headerJobName)
  queue := if trimSpace (header msg.headers headerJobQueue) = "" then trimSpace fallbackQueue
    else trimSpace (header msg.headers headerJobQueue)
  payload := msg.value
  headers := msg.headers
  contentType := if trimSpace msg.contentType = "" then defaultContentType
    else trimSpace msg.contentType
  tenantID := trimSpace (firstNonEmpty (header msg.headers headerJobTenantID)
    (header msg.headers "tenant_id"))
  correlationID := trimSpace (firstNonEmpty (header msg.headers headerJobCorrelationID)
    (header msg.headers "correlation_id"))
  idempotencyKey := trimSpace (header msg.headers headerJobIdempotencyKey)
  partitionKey := trimSpace msg.key
  runAt := decodedRunAt now msg.timestamp runAt
  attempt := attempt
  maxAttempts := maxAttempts
  createdAt := if isZero msg.timestamp then now else msg.timestamp

def jobFromEventBusMessageWithQueue (now : Time) (msg : Message) (fallbackQueue : String) :
    Except GoError Job :=
  if trimSpace msg.id = "" then .error (.jobs .validation "message id is required")
  else if msg.value.length = 0 then .error (.jobs .validation "message payload is empty")
  else match headerTime msg.headers headerJobRunAt with
  | .error e => .error e
  | .ok runAt => match headerInt msg.headers headerJobAttempt with
    | .error e => .error e
    | .ok attempt => match headerInt msg.headers headerJobMaxAttempts with
      | .error e => .error e
      | .ok maxAttempts =>
          let job := decodedJob now msg fallbackQueue runAt attempt maxAttempts
          match job.validate with
          | .error e => .error e
          | .ok _ => .ok job

end Nimburion.Jobs
