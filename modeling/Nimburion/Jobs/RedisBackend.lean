import Nimburion.Lib.Interaction
import Nimburion.Lib.Redis
import Nimburion.Jobs.Job

namespace Nimburion.Jobs.RedisBackend
open Interaction GoText GoTime

structure DLQRecord where
  id : String
  queue : String
  originalQueue : String
  job : Option Job
  reason : String
  failedAt : Time
  deriving DecidableEq

-- a Redis value is the JSON text of an envelope or of a record, kept as what it denotes
inductive Text where
  | envelope (job : Option Job)
  | record (entry : DLQRecord)
  | raw (s : String)
  deriving DecidableEq

namespace Text

def unmarshalEnvelope : Text → Option (Option Job)
  | envelope job => some job
  | record entry => some entry.job
  | raw _ => none

def unmarshalRecord : Text → Option DLQRecord
  | envelope job => some ⟨"","","",job,"",zeroTime⟩
  | record entry => some entry
  | raw _ => none

def job? (v : Text) : Option Job := v.unmarshalEnvelope.join

def isBlank : Text → Bool
  | raw s => trimSpace s = ""
  | _ => false

end Text

def yearError : GoError :=
  .text "json: error calling MarshalJSON for type time.Time: Time.MarshalJSON: year outside of range [0,9999]"

def marshalable (j : Job) : Bool := inYearRange j.runAt && inYearRange j.createdAt

def marshalEnvelope (j : Job) : Except GoError Text :=
  if marshalable j then .ok (.envelope (some j)) else .error yearError

def marshalRecord (entry : DLQRecord) : Except GoError Text :=
  if (entry.job.all marshalable) && inYearRange entry.failedAt then .ok (.record entry)
  else .error yearError

structure Config where
  keyPrefix : String
  dlqSuffix : String
  transferBatch : Int
  deriving DecidableEq, Repr

def Config.normalize (c : Config) : Config where
  keyPrefix := if trimSpace c.keyPrefix = "" then "nimburion:jobs" else c.keyPrefix
  dlqSuffix := if trimSpace c.dlqSuffix = "" then defaultDLQSuffix else c.dlqSuffix
  transferBatch := if c.transferBatch ≤ 0 then 100 else c.transferBatch

section Keys

variable (b : Config)

def trimmedPrefix : String := trimRight (trimSpace b.keyPrefix) (· = ':')

def readyKey (queue : String) : String :=
  trimmedPrefix b ++ ":queue:" ++ trimSpace queue ++ ":ready"

def delayedKey (queue : String) : String :=
  trimmedPrefix b ++ ":queue:" ++ trimSpace queue ++ ":delayed"

def leaseKeyPrefix : String := trimmedPrefix b ++ ":lease:"

def leaseKey (token : String) : String := trimmedPrefix b ++ ":lease:" ++ trimSpace token

def dlqIndexKey (queue : String) : String := trimmedPrefix b ++ ":dlq:index:" ++ trimSpace queue

def dlqEntryKey (queue id : String) : String :=
  trimmedPrefix b ++ ":dlq:entry:" ++ trimSpace queue ++ ":" ++ trimSpace id

end Keys

-- who asked for a push; Redis does not see it
inductive Source where
  | client
  | replay (entryKey : String)
  deriving DecidableEq, Repr

inductive Op where
  | ensureOpen
  | now
  | randomToken
  | rpush (src : Source) (key : String) (val : Text)
  | zadd (src : Source) (key : String) (score : Int) (member : Text)
  | reserveScript (delayed ready leasePrefix : String) (nowMs transferBatch leaseMs : Int)
      (token : String)
  | getAndDeleteScript (key : String)
  | transitionLeaseScript (lease ready delayed : String) (expected encoded : Text)
      (runAtMs nowMs : Int)
  | pexpire (key : String) (ms : Int)
  | get (key : String)
  | saveEntry (entryKey : String) (val : Text) (indexKey : String) (score : Int) (id : String)
  | removeEntry (indexKey id entryKey : String)
  | zrevrange (key : String) (limit : ℕ)

abbrev Ans : Op → Type
  | .ensureOpen => Except GoError Unit
  | .now => Time
  | .randomToken => String
  | .rpush .. => Except GoError Unit
  | .zadd .. => Except GoError Unit
  | .reserveScript .. => Except GoError (Option Text)
  | .getAndDeleteScript _ => Except GoError (Option Text)
  | .transitionLeaseScript .. => Except GoError Int
  | .pexpire .. => Except GoError Bool
  | .get _ => Except GoError (Option Text)
  | .saveEntry .. => Except GoError Unit
  | .removeEntry .. => Except GoError Unit
  | .zrevrange .. => Except GoError (List Text)

abbrev M := Prog Op Ans GoError

section Programs

variable (b : Config)

def ensureOpen : M Unit := do
  let r ← Prog.perform Op.ensureOpen
  Prog.liftExcept r

def now : M Time := Prog.perform Op.now

def randomToken : M String := Prog.perform Op.randomToken

def orNow (t : Time) : M Time := if isZero t then now else pure t

def pushEncoded (src : Source) (job : Job) (encoded : Text) (now : Time) : M Unit :=
  if job.runAt ≤ now then do
    let r ← Prog.perform (Op.rpush src (readyKey b job.queue) encoded)
    Prog.liftExcept r
  else do
    let r ← Prog.perform (Op.zadd src (delayedKey b job.queue) (unixMilli job.runAt) encoded)
    Prog.liftExcept r

def stamp (job : Job) (createdAt : Time) : Job :=
  { job with
    createdAt := createdAt
    runAt := if isZero job.runAt then createdAt else job.runAt }

def enqueueFrom (src : Source) (job : Job) : M Unit := do
  ensureOpen
  Prog.liftExcept job.validate
  let createdAt ← orNow job.createdAt
  match marshalEnvelope (stamp job createdAt) with
  | .error e => Prog.fail (.join (.jobs .validation "marshal job envelope failed") e)
  | .ok encoded => do
      let now ← now
      pushEncoded b src (stamp job createdAt) encoded now

def enqueue (job : Job) : M Unit := enqueueFrom b .client job

def ack (lease : Lease) : M Unit := do
  ensureOpen
  if trimSpace lease.token = "" then
    Prog.fail (.jobs .invalidArgument "lease token is required")
  else do
    let r ← Prog.perform (Op.getAndDeleteScript (leaseKey b (trimSpace lease.token)))
    match r with
    | .error e => Prog.fail e
    | .ok _ => pure ()

def tokenLease (token : String) : Lease := ⟨"",token,"",zeroTime,0⟩

def withQueue (queue : String) (job : Job) : Job :=
  if trimSpace job.queue = "" then { job with queue := queue } else job

-- none stands for the three payloads Reserve discards: malformed, empty and invalid
def decodeQueued (queue : String) (raw : Text) : Option Job :=
  match raw.unmarshalEnvelope with
  | none => none
  | some none => none
  | some (some job) => match (withQueue queue job).validate with
    | .error _ => none
    | .ok _ => some (withQueue queue job)

def reserveLoop (queue : String) (leaseFor leaseMs : Int) (ctxErr : GoError) :
    ℕ → M (Job × Lease)
  | 0 => Prog.fail ctxErr
  | rounds+1 => do
      let token ← randomToken
      let now ← now
      let result ← Prog.perform (Op.reserveScript (delayedKey b queue) (readyKey b queue)
        (leaseKeyPrefix b) (unixMilli now) b.transferBatch leaseMs token)
      match result with
      | .error e => Prog.fail e
      | .ok none => reserveLoop queue leaseFor leaseMs ctxErr rounds
      | .ok (some raw) =>
          if raw.isBlank then reserveLoop queue leaseFor leaseMs ctxErr rounds
          else match decodeQueued queue raw with
          | none => do
              let _ ← Prog.attempt (ack b (tokenLease token))
              reserveLoop queue leaseFor leaseMs ctxErr rounds
          | some job => pure (job,⟨trimSpace job.id,token,queue,now+leaseFor,job.attempt⟩)

def reserve (queue : String) (leaseFor : Duration) (ctxErr : GoError) (rounds : ℕ) :
    M (Job × Lease) := do
  ensureOpen
  let queue := trimSpace queue
  if queue = "" then Prog.fail (.jobs .invalidArgument "queue is required")
  else
    let leaseFor := if leaseFor ≤ 0 then defaultLeaseTTL else leaseFor
    let leaseMs := leaseFor.tdiv millisecond
    reserveLoop b queue leaseFor (if leaseMs ≤ 0 then 1 else leaseMs) ctxErr rounds

def decodeLeased (lease : Lease) (raw : Text) : Except GoError Job :=
  match raw.unmarshalEnvelope with
  | none => .error (.join (.jobs .validation "decode lease payload failed")
      (.text "invalid character"))
  | some none => .error (.jobs .validation "lease payload does not contain a job")
  | some (some job) => match (withQueue (trimSpace lease.queue) job).validate with
    | .error e => .error e
    | .ok _ => .ok (withQueue (trimSpace lease.queue) job)

def readLeasedJob (lease : Lease) : M (Text × Job) := do
  ensureOpen
  if trimSpace lease.token = "" then
    Prog.fail (.jobs .invalidArgument "lease token is required")
  else do
    let r ← Prog.perform (Op.get (leaseKey b (trimSpace lease.token)))
    match r with
    | .error e => Prog.fail e
    | .ok none => Prog.fail (.jobs .notFound "lease not found")
    | .ok (some raw) => do
        let job ← Prog.liftExcept (decodeLeased lease raw)
        pure (raw,job)

def transitionResult : Except GoError Int → M Unit
  | .error e => Prog.fail e
  | .ok 1 => pure ()
  | .ok 0 => Prog.fail (.jobs .notFound "lease not found")
  | .ok (-1) => Prog.fail (.jobs .conflict "lease payload changed while transitioning")
  | .ok n => Prog.fail (.jobs .validation ("invalid lease transition result: " ++ toString n))

def transitionLeaseToQueue (lease : Lease) (expectedLeasePayload nextEncodedPayload : Text)
    (queue : String) (runAt : Time) : M Unit := do
  ensureOpen
  let queue := trimSpace queue
  if trimSpace lease.token = "" then
    Prog.fail (.jobs .invalidArgument "lease token is required")
  else if queue = "" then Prog.fail (.jobs .invalidArgument "queue is required")
  else if nextEncodedPayload.isBlank then
    Prog.fail (.jobs .invalidArgument "next payload is required")
  else if expectedLeasePayload.isBlank then
    Prog.fail (.jobs .invalidArgument "expected lease payload is required")
  else do
    let runAtUTC ← orNow runAt
    let now ← now
    let r ← Prog.perform (Op.transitionLeaseScript (leaseKey b (trimSpace lease.token))
      (readyKey b queue) (delayedKey b queue) expectedLeasePayload nextEncodedPayload
      (unixMilli runAtUTC) (unixMilli now))
    transitionResult r

def nack (lease : Lease) (nextRunAt : Time) (reason : Option GoError) : M Unit := do
  let (rawLeasePayload,job) ← readLeasedJob b lease
  let failedAt ← now
  let runAt ← orNow nextRunAt
  let job := retryJob job reason failedAt runAt
  match marshalEnvelope job with
  | .error e => Prog.fail (.join (.jobs .validation "marshal retry job failed") e)
  | .ok encodedJob =>
      transitionLeaseToQueue b lease rawLeasePayload encodedJob (trimSpace job.queue) job.runAt

-- go-redis sends durations below one millisecond as 1
def formatMs (d : Duration) : Int :=
  if 0 < d ∧ d < millisecond then 1 else d.tdiv millisecond

def renew (lease : Lease) (leaseFor : Duration) : M Unit := do
  ensureOpen
  if trimSpace lease.token = "" then
    Prog.fail (.jobs .invalidArgument "lease token is required")
  else do
    let leaseFor := if leaseFor ≤ 0 then defaultLeaseTTL else leaseFor
    let r ← Prog.perform (Op.pexpire (leaseKey b (trimSpace lease.token)) (formatMs leaseFor))
    match r with
    | .error e => Prog.fail e
    | .ok false => Prog.fail (.jobs .notFound "lease not found")
    | .ok true => pure ()

def orRandomToken (id : String) : M String :=
  if trimSpace id = "" then randomToken else pure id

def saveDLQEntry (entry : DLQRecord) : M Unit := do
  let queue := trimSpace entry.originalQueue
  if queue = "" then Prog.fail (.jobs .invalidArgument "dlq original queue is required")
  else do
    let id ← orRandomToken entry.id
    let failedAt ← orNow entry.failedAt
    match marshalRecord { entry with id := id, originalQueue := queue, failedAt := failedAt } with
    | .error e => Prog.fail e
    | .ok encoded => do
        let r ← Prog.perform (Op.saveEntry (dlqEntryKey b queue id) encoded (dlqIndexKey b queue)
          (unixMilli failedAt) id)
        Prog.liftExcept r

def dlqJob (job : Job) (originalQueue : String) (reason : Option GoError) (failedAt : Time) : Job :=
  { job with
    queue := originalQueue ++ b.dlqSuffix
    headers := dlqHeaders job.headers originalQueue reason failedAt }

def moveToDLQ (lease : Lease) (reason : Option GoError) : M Unit := do
  let (rawLeasePayload,job) ← readLeasedJob b lease
  let originalQueue := if trimSpace job.queue = "" then trimSpace lease.queue
    else trimSpace job.queue
  let failedAt ← now
  let job := dlqJob b job originalQueue reason failedAt
  match marshalEnvelope job with
  | .error e => Prog.fail (.join (.jobs .validation "marshal dlq job failed") e)
  | .ok encodedJob => do
      let runAt ← now
      transitionLeaseToQueue b lease rawLeasePayload encodedJob (trimSpace job.queue) runAt
      let id ← randomToken
      let at_ ← now
      saveDLQEntry b ⟨id,job.queue,originalQueue,some job,
        trimSpace ((job.headers.lookup headerJobFailureReason).getD ""),at_⟩

def listLoop (queue : String) : List Text → List DLQRecord → M (List DLQRecord)
  | [], entries => pure entries
  | .raw id :: ids, entries => do
      let r ← Prog.perform (Op.get (dlqEntryKey b queue id))
      match r with
      | .error e => Prog.fail e
      | .ok none => listLoop queue ids entries
      | .ok (some raw) => match raw.unmarshalRecord with
        | none => listLoop queue ids entries
        | some entry => listLoop queue ids (entries ++ [entry])
  | _ :: ids, entries => listLoop queue ids entries

def listDLQ (queue : String) (limit : Int) : M (List DLQRecord) := do
  ensureOpen
  let queue := trimSpace queue
  if queue = "" then Prog.fail (.jobs .invalidArgument "queue is required")
  else do
    let r ← Prog.perform (Op.zrevrange (dlqIndexKey b queue)
      (if limit ≤ 0 then 50 else limit).toNat)
    match r with
    | .error e => Prog.fail e
    | .ok ids => listLoop b queue ids []

def headerDLQReplay : String := "dlq_replay"

def replayJob (entry : DLQRecord) (job : Job) (now : Time) : Job :=
  { job with
    queue := entry.originalQueue
    headers := job.headers.insert headerDLQReplay "true"
    attempt := 0
    runAt := now }

def replayLoop (queue : String) : List String → ℕ → M (ℕ × Option GoError)
  | [], replayed => pure (replayed,none)
  | id :: ids, replayed =>
      let id := trimSpace id
      if id = "" then replayLoop queue ids replayed
      else do
        let r ← Prog.perform (Op.get (dlqEntryKey b queue id))
        match r with
        | .error e => pure (replayed,some e)
        | .ok none => replayLoop queue ids replayed
        | .ok (some raw) => match raw.unmarshalRecord with
          | none => replayLoop queue ids replayed
          | some entry => match entry.job with
            | none => Prog.fail (.text "runtime error: invalid memory address or nil pointer dereference")
            | some job => do
                let now ← now
                let enqueued ← Prog.attempt
                  (enqueueFrom b (.replay (dlqEntryKey b queue id)) (replayJob entry job now))
                match enqueued with
                | .error e => pure (replayed,some e)
                | .ok _ => do
                    let r ← Prog.perform
                      (Op.removeEntry (dlqIndexKey b queue) id (dlqEntryKey b queue id))
                    match r with
                    | .error e => pure (replayed,some e)
                    | .ok _ => replayLoop queue ids (replayed+1)

def replayDLQ (queue : String) (ids : List String) : M (ℕ × Option GoError) := do
  let opened ← Prog.attempt ensureOpen
  match opened with
  | .error e => pure (0,some e)
  | .ok _ =>
      let queue := trimSpace queue
      if queue = "" then pure (0,some (.jobs .invalidArgument "queue is required"))
      else replayLoop b queue ids 0

end Programs

end Nimburion.Jobs.RedisBackend
