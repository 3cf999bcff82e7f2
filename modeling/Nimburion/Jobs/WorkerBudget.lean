import Nimburion.Jobs.Worker
import Nimburion.Jobs.RedisServer

namespace Nimburion.Jobs.Worker
open Interaction GoText GoTime
open RedisBackend (Text)

structure World where
  config : RedisBackend.Config
  queue : String
  times : ℕ → Time
  tokens : ℕ → String
  hex : ∀ n, RedisBackend.hexToken (tokens n) = true

def World.backend (w : World) : RedisBackend.Config := w.config.normalize

structure Slot where
  queued : Option Text
  leased : Option Text
  elsewhere : Option Text
  reads : ℕ

def Slot.put (w : World) (s : Slot) (key : String) (val : Text) : Slot :=
  if key = RedisBackend.readyKey w.backend w.queue ∨
      key = RedisBackend.delayedKey w.backend w.queue then { s with queued := some val }
  else { s with elsewhere := some val }

-- Redis as one job sees it: no other payload, nothing expires, no command fails
def redis (w : World) (s : Slot) : (op : RedisBackend.Op) → RedisBackend.Ans op × Slot
  | .ensureOpen => (.ok (),s)
  | .now => (w.times s.reads,{ s with reads := s.reads+1 })
  | .randomToken => (w.tokens s.reads,{ s with reads := s.reads+1 })
  | .rpush _ key val => (.ok (),Slot.put w s key val)
  | .zadd _ key _ member => (.ok (),Slot.put w s key member)
  | .reserveScript .. => (.ok s.queued,{ s with queued := none, leased := s.queued })
  | .getAndDeleteScript _ => (.ok s.leased,{ s with leased := none })
  | .transitionLeaseScript _ ready _ expected encoded _ _ =>
      match s.leased with
      | none => (.ok 0,s)
      | some current =>
          if current ≠ expected then (.ok (-1),s)
          else (.ok 1,Slot.put w { s with leased := none } ready encoded)
  | .pexpire .. => (.ok s.leased.isSome,s)
  | .get _ => (.ok s.leased,s)
  | .saveEntry .. => (.ok (),s)
  | .removeEntry .. => (.ok (),s)
  | .zrevrange .. => (.ok [],s)

section Backend

variable (w : World)

theorem token_ne_blank (n : ℕ) : trimSpace (w.tokens n) ≠ "" := by
  rw [RedisBackend.trimSpace_hexToken (w.hex n)]
  exact RedisBackend.hexToken_ne_empty (w.hex n)

theorem eval_ensureOpen (s : Slot) : (RedisBackend.ensureOpen).eval (redis w) s = (.ok (),s) := by
  simp [RedisBackend.ensureOpen,redis]

theorem eval_now (s : Slot) : (RedisBackend.now).eval (redis w) s =
    (.ok (w.times s.reads),{ s with reads := s.reads+1 }) := rfl

theorem eval_ack (lease : Lease) (s : Slot) (h : trimSpace lease.token ≠ "") :
    (RedisBackend.ack w.backend lease).eval (redis w) s = (.ok (),{ s with leased := none }) := by
  simp [RedisBackend.ack,eval_ensureOpen,h,redis]

theorem eval_reserve {queue : String} (leaseFor : Duration) (ctxErr : GoError) {s : Slot}
    {raw : Text} {job : Job} (hqueue : trimSpace queue ≠ "") (hs : s.queued = some raw)
    (hblank : raw.isBlank = false)
    (hjob : RedisBackend.decodeQueued (trimSpace queue) raw = some job) :
    ∃ lease, lease.token = w.tokens s.reads ∧ lease.queue = trimSpace queue ∧
    (RedisBackend.reserve w.backend queue leaseFor ctxErr 1).eval (redis w) s =
      (.ok (job,lease),{ s with queued := none, leased := some raw, reads := s.reads+2 }) := by
  refine ⟨⟨trimSpace job.id,w.tokens s.reads,trimSpace queue,
    w.times (s.reads+1) + (if leaseFor ≤ 0 then defaultLeaseTTL else leaseFor),job.attempt⟩,
    rfl,rfl,?_⟩
  simp [RedisBackend.reserve,RedisBackend.reserveLoop,RedisBackend.randomToken,
    RedisBackend.now,eval_ensureOpen,hqueue,redis,hs,hblank,hjob]

theorem decodeLeased_of_valid {lease : Lease} {job : Job} (h : job.Valid) :
    RedisBackend.decodeLeased lease (.envelope (some job)) = .ok job := by
  have hq : RedisBackend.withQueue (trimSpace lease.queue) job = job := if_neg h.queue
  simp [RedisBackend.decodeLeased,Text.unmarshalEnvelope,hq,(Job.validate_ok_iff job).mpr h]

theorem decodeQueued_of_valid {queue : String} {job : Job} (h : job.Valid) :
    RedisBackend.decodeQueued queue (.envelope (some job)) = some job := by
  have hq : RedisBackend.withQueue queue job = job := if_neg h.queue
  simp [RedisBackend.decodeQueued,Text.unmarshalEnvelope,hq,(Job.validate_ok_iff job).mpr h]

theorem decodeQueued_of_invalid (queue : String) {job : Job} (hq : trimSpace job.queue ≠ "")
    (h : ¬ job.Valid) : RedisBackend.decodeQueued queue (.envelope (some job)) = none := by
  have hsame : RedisBackend.withQueue queue job = job := if_neg hq
  rw [← Job.validate_ok_iff] at h
  simp only [RedisBackend.decodeQueued,Text.unmarshalEnvelope,hsame]
  split
  · rfl
  · rename_i hv
    exact absurd hv h

theorem eval_readLeasedJob {lease : Lease} {job : Job} {s : Slot}
    (htoken : trimSpace lease.token ≠ "") (hs : s.leased = some (.envelope (some job)))
    (hvalid : job.Valid) : (RedisBackend.readLeasedJob w.backend lease).eval (redis w) s =
      (.ok (.envelope (some job),job),s) := by
  simp [RedisBackend.readLeasedJob,eval_ensureOpen,htoken,redis,hs,decodeLeased_of_valid hvalid]

theorem eval_orNow (t : Time) (s : Slot) : ∃ u reads, (u = t ∨ u = w.times s.reads) ∧
    (RedisBackend.orNow t).eval (redis w) s = (.ok u,{ s with reads := reads }) := by
  unfold RedisBackend.orNow
  by_cases hz : isZero t = true
  · exact ⟨w.times s.reads,s.reads+1,.inr rfl,by rw [if_pos hz]; rfl⟩
  · exact ⟨t,s.reads,.inl rfl,by rw [if_neg hz]; rfl⟩

theorem eval_transitionLeaseToQueue (lease : Lease) (expected encoded : Text) (queue : String)
    (runAt : Time) (s : Slot) (htoken : trimSpace lease.token ≠ "") (hqueue : trimSpace queue ≠ "")
    (hencoded : encoded.isBlank = false) (hexpected : expected.isBlank = false)
    (hs : s.leased = some expected) : ∃ reads,
      (RedisBackend.transitionLeaseToQueue w.backend lease expected encoded queue runAt).eval
        (redis w) s = (.ok (),Slot.put w { s with leased := none, reads := reads }
          (RedisBackend.readyKey w.backend queue) encoded) := by
  obtain ⟨u,reads,_,hnow⟩ := eval_orNow w runAt s
  refine ⟨reads+1,?_⟩
  simp only [RedisBackend.transitionLeaseToQueue,Prog.eval_bind,eval_ensureOpen,htoken,hqueue,
    hencoded,hexpected,if_false,Bool.false_eq_true,hnow,eval_now,Prog.eval_perform,redis,hs,
    ne_eq,not_true_eq_false]
  simp [RedisBackend.transitionResult,RedisBackend.readyKey]

theorem eval_nack (lease : Lease) (nextRunAt : Time) (reason : Option GoError) (s : Slot)
    {job : Job} (htoken : trimSpace lease.token ≠ "") (hs : s.leased = some (.envelope (some job)))
    (hvalid : job.Valid) (hqueue : trimSpace job.queue = trimSpace w.queue)
    (hcreated : inYearRange job.createdAt = true) (hnext : inYearRange nextRunAt = true)
    (hclock : ∀ n, inYearRange (w.times n) = true) : ∃ failedAt runAt reads,
      inYearRange runAt = true ∧
      (RedisBackend.nack w.backend lease nextRunAt reason).eval (redis w) s =
        (.ok (),{ s with
          queued := some (.envelope (some (retryJob job reason failedAt runAt)))
          leased := none
          reads := reads }) := by
  obtain ⟨runAt,reads,hrunAt,hor⟩ := eval_orNow w nextRunAt { s with reads := s.reads+1 }
  have hrange : inYearRange runAt = true := by
    rcases hrunAt with rfl | rfl
    · exact hnext
    · exact hclock _
  have hmarshal : RedisBackend.marshalEnvelope
      (retryJob job reason (w.times s.reads) runAt) =
        .ok (.envelope (some (retryJob job reason (w.times s.reads) runAt))) :=
    if_pos (by simp [RedisBackend.marshalable,retryJob,hrange,hcreated])
  obtain ⟨reads',htrans⟩ := eval_transitionLeaseToQueue w lease (.envelope (some job))
    (.envelope (some (retryJob job reason (w.times s.reads) runAt)))
    (trimSpace job.queue) runAt { s with reads := reads } htoken
    (by simpa using hvalid.queue) rfl rfl hs
  have hkey : RedisBackend.readyKey w.backend (trimSpace job.queue) =
      RedisBackend.readyKey w.backend w.queue := by
    simp [RedisBackend.readyKey,hqueue]
  refine ⟨w.times s.reads,runAt,reads',hrange,?_⟩
  simp only [RedisBackend.nack,Prog.eval_bind,eval_readLeasedJob w htoken hs hvalid,eval_now,hor,
    hmarshal]
  refine htrans.trans ?_
  simp [Slot.put,hkey]

theorem eval_saveDLQEntry (entry : RedisBackend.DLQRecord) (s : Slot)
    (hid : trimSpace entry.id ≠ "") (hqueue : trimSpace entry.originalQueue ≠ "")
    (hjob : entry.job.all RedisBackend.marshalable = true)
    (hat : inYearRange entry.failedAt = true) (hclock : ∀ n, inYearRange (w.times n) = true) :
    ∃ reads, (RedisBackend.saveDLQEntry w.backend entry).eval (redis w) s =
      (.ok (),{ s with reads := reads }) := by
  obtain ⟨failedAt,reads,hfailed,hor⟩ := eval_orNow w entry.failedAt s
  have hrange : inYearRange failedAt = true := by
    rcases hfailed with rfl | rfl
    · exact hat
    · exact hclock _
  refine ⟨reads,?_⟩
  simp [RedisBackend.saveDLQEntry,RedisBackend.orRandomToken,hid,hqueue,hor,
    RedisBackend.marshalRecord,hjob,hrange,redis]

theorem dlqSuffix_ne_blank : trimSpace w.backend.dlqSuffix ≠ "" := by
  unfold World.backend RedisBackend.Config.normalize
  dsimp only
  split_ifs with h
  · decide +kernel
  · exact h

theorem readyKey_ne_delayedKey (q q' : String) :
    RedisBackend.readyKey w.backend q ≠ RedisBackend.delayedKey w.backend q' := by
  intro heq
  have hlast := congrArg (fun s => s.toList.reverse.take 2) heq
  simp [RedisBackend.readyKey,RedisBackend.delayedKey] at hlast

theorem eval_moveToDLQ {lease : Lease} (reason : Option GoError) {job : Job} {s : Slot}
    (htoken : trimSpace lease.token ≠ "") (hs : s.leased = some (.envelope (some job)))
    (hvalid : job.Valid) (hqueue : trimSpace job.queue = trimSpace w.queue)
    (hjob : RedisBackend.marshalable job = true) (hclock : ∀ n, inYearRange (w.times n) = true) :
    ∃ s', (RedisBackend.moveToDLQ w.backend lease reason).eval (redis w) s = (.ok (),s') ∧
      s'.queued = s.queued ∧ s'.leased = none := by
  have hne := trimSpace_append_ne (trimSpace_trimSpace job.queue) hvalid.queue
    (dlqSuffix_ne_blank w)
  generalize hdlq : RedisBackend.dlqJob w.backend job (trimSpace job.queue) reason
    (w.times s.reads) = moved
  have hmovedQueue : moved.queue = trimSpace job.queue ++ w.backend.dlqSuffix := by rw [← hdlq]; rfl
  have hmovedTimes : RedisBackend.marshalable moved = true := by rw [← hdlq]; exact hjob
  have hmarshal : RedisBackend.marshalEnvelope moved = .ok (.envelope (some moved)) :=
    if_pos hmovedTimes
  have hmovedNe : trimSpace moved.queue ≠ "" := by
    rw [hmovedQueue,ne_eq,trimSpace_eq_empty_iff]
    have hq := hvalid.queue
    rw [ne_eq,← trimSpace_trimSpace,trimSpace_eq_empty_iff] at hq
    intro hall
    exact hq fun c hc => hall c (by simp [hc])
  obtain ⟨reads,htrans⟩ := eval_transitionLeaseToQueue w lease (.envelope (some job))
    (.envelope (some moved)) (trimSpace moved.queue) (w.times (s.reads+1))
    { s with reads := s.reads+2 } htoken (by simpa using hmovedNe) rfl rfl hs
  have hkey : ¬ (RedisBackend.readyKey w.backend (trimSpace moved.queue) =
        RedisBackend.readyKey w.backend w.queue ∨
      RedisBackend.readyKey w.backend (trimSpace moved.queue) =
        RedisBackend.delayedKey w.backend w.queue) := by
    rintro (heq | heq)
    · simp only [RedisBackend.readyKey,trimSpace_trimSpace,String.append_left_inj,
        String.append_right_inj] at heq
      rw [hmovedQueue,← hqueue] at heq
      exact hne heq
    · exact readyKey_ne_delayedKey w _ _ heq
  obtain ⟨reads',hsave⟩ := eval_saveDLQEntry w ⟨w.tokens reads,moved.queue,
    trimSpace job.queue,some moved,
    trimSpace ((moved.headers.lookup headerJobFailureReason).getD ""),w.times (reads+1)⟩
    { s with leased := none, elsewhere := some (.envelope (some moved)), reads := reads+2 }
    (token_ne_blank w _) (by simpa using hvalid.queue) (by simpa using hmovedTimes) (hclock _)
    hclock
  refine ⟨{ s with
    leased := none
    elsewhere := some (.envelope (some moved))
    reads := reads' },?_,rfl,rfl⟩
  simp only [RedisBackend.moveToDLQ,Prog.eval_bind,eval_readLeasedJob w htoken hs hvalid,eval_now,
    hvalid.queue,if_false,hdlq,hmarshal,htrans,Slot.put,hkey,RedisBackend.randomToken,
    Prog.eval_perform,redis]
  exact hsave

end Backend

inductive Event where
  | handled (err : Option GoError)
  | acked
  | nacked (payload : Option Text)
  | deadLettered
  | quarantined (record : Retry.QuarantineRecord)
  | discarded (payload : Text)
  deriving DecidableEq

structure Bench where
  slot : Slot
  handled : ℕ
  log : List Event

def Bench.settle (s : Bench) (r : Except GoError Unit × Slot) (e : Event) :
    Except GoError Unit × Bench :=
  match r.1 with
  | .ok _ => (.ok (),{ s with slot := r.2, log := s.log ++ [e] })
  | .error err => (.error err,{ s with slot := r.2 })

section Lifecycle

variable (w : World) (cfg : WorkerConfig) (registered : String → Bool)
  (handler : ℕ → Option GoError)

def bench (s : Bench) : (op : Op) → Ans op × Bench
  | .executeHandler _ => (handler s.handled,{ s with
      handled := s.handled+1
      log := s.log ++ [.handled (handler s.handled)] })
  | .startLeaseRenewal _ => ((),s)
  | .stopRenew => ((),s)
  | .renewDone => (none,s)
  | .now => (w.times s.slot.reads,{ s with slot := { s.slot with reads := s.slot.reads+1 } })
  | .ack lease => s.settle ((RedisBackend.ack w.backend lease).eval (redis w) s.slot) .acked
  | .nack lease nextRunAt reason =>
      let r := (RedisBackend.nack w.backend lease nextRunAt (some reason)).eval (redis w) s.slot
      s.settle r (.nacked r.2.queued)
  | .moveToDLQ lease reason =>
      s.settle ((RedisBackend.moveToDLQ w.backend lease (some reason)).eval (redis w) s.slot)
        .deadLettered
  | .quarantine record => (.ok (),{ s with log := s.log ++ [.quarantined record] })

def serveOne (s : Bench) : Bench :=
  match s.slot.queued with
  | none => s
  | some raw =>
      match (RedisBackend.reserve w.backend w.queue cfg.leaseTTL .contextCanceled 1).eval
        (redis w) s.slot with
      | (.ok (job,lease),slot) =>
          ((process cfg registered job lease).eval (bench w handler) { s with slot := slot }).2
      | (.error _,slot) => { s with slot := slot, log := s.log ++ [.discarded raw] }

def runQueueLoop : ℕ → Bench → Bench
  | 0, s => s
  | rounds+1, s => runQueueLoop rounds (serveOne w cfg registered handler s)

end Lifecycle

inductive Ending where
  | success
  | quarantine (failure : GoError) (record : Retry.QuarantineRecord)
  | deadLetter (failure : GoError)
  | drop (failure : GoError)

def Ending.events : Ending → List Event
  | success => [.handled none,.acked]
  | quarantine failure record => [.handled (some failure),.quarantined record,.acked]
  | deadLetter failure => [.handled (some failure),.deadLettered]
  | drop failure => [.handled (some failure),.acked]

structure Pending (w : World) (registered : String → Bool) (s : Bench) (job : Job) : Prop where
  queued : s.slot.queued = some (.envelope (some job))
  leased : s.slot.leased = none
  queue : trimSpace job.queue = trimSpace w.queue
  created : inYearRange job.createdAt = true
  runAt : inYearRange job.runAt = true
  registered : registered (trimSpace job.name) = true

structure Finished (s : Bench) : Prop where
  queued : s.slot.queued = none
  leased : s.slot.leased = none

def ClockInRange (w : World) (cfg : WorkerConfig) : Prop :=
  ∀ n d, 0 ≤ d → d ≤ max cfg.retry.initialBackoff cfg.retry.maxBackoff →
    inYearRange (w.times n + d) = true

theorem backoffLoop_bounds {maxBackoff backoff : Int} (hmax : 0 ≤ maxBackoff) (n : ℕ)
    (hb : 0 ≤ backoff) : 0 ≤ Retry.backoffLoop maxBackoff n backoff ∧
      Retry.backoffLoop maxBackoff n backoff ≤ maxBackoff := by
  induction n generalizing backoff with
  | zero =>
    rcases lt_or_ge maxBackoff backoff with hlt | hge
    · rw [Retry.backoffLoop,if_pos hlt]
      exact ⟨hmax,le_refl _⟩
    · rw [Retry.backoffLoop,if_neg (not_lt.mpr hge)]
      exact ⟨hb,hge⟩
  | succ n ih =>
    by_cases hcap : maxBackoff.tdiv 2 ≤ backoff
    · rw [Retry.backoffLoop,if_pos hcap]
      exact ⟨hmax,le_refl _⟩
    · rw [Retry.backoffLoop,if_neg hcap]
      exact ih (by omega)

theorem exponentialBackoff_bounds (attempt : Int64) {initial maxBackoff : Int}
    (hi : 0 ≤ initial) (hm : 0 ≤ maxBackoff) :
    0 ≤ Retry.exponentialBackoff attempt initial maxBackoff ∧
      Retry.exponentialBackoff attempt initial maxBackoff ≤ max initial maxBackoff := by
  unfold Retry.exponentialBackoff
  split_ifs
  · exact ⟨hi,le_max_left _ _⟩
  · have hb := backoffLoop_bounds hm (attempt.toInt.toNat-1) hi
    exact ⟨hb.1,hb.2.trans (le_max_right _ _)⟩

theorem decision_delay_bounds {cfg : WorkerConfig} (job : Job) (failure : GoError)
    (hi : 0 ≤ cfg.retry.initialBackoff) (hm : 0 ≤ cfg.retry.maxBackoff) :
    0 ≤ (decision cfg job failure).delay ∧
      (decision cfg job failure).delay ≤ max cfg.retry.initialBackoff cfg.retry.maxBackoff := by
  have hb := exponentialBackoff_bounds (job.attempt+1) hi hm
  have hz : (0 : Duration) ≤ max cfg.retry.initialBackoff cfg.retry.maxBackoff :=
    hi.trans (le_max_left _ _)
  rw [decision]
  rcases Retry.decide_delay (Retry.classify (some failure)) (job.attempt+1)
    (effectiveMaxAttempts cfg job) { cfg.retry with maxAttempts := effectiveMaxAttempts cfg job }
    (policy cfg) with hdelay | hdelay
  · rw [hdelay]
    exact ⟨le_refl _,hz⟩
  · rw [hdelay]
    exact hb

section Steps

variable {w : World} (cfg : WorkerConfig) {registered : String → Bool}
  (handler : ℕ → Option GoError) {s : Bench} {job : Job} {lease : Lease} {failure : GoError}

theorem clock_now {cfg : WorkerConfig} (hclock : ClockInRange w cfg) (hi : 0 ≤ cfg.retry.initialBackoff) (n : ℕ) :
    inYearRange (w.times n) = true := by
  simpa using hclock n 0 (le_refl _) (hi.trans (le_max_left _ _))

theorem eval_bench_ack (htoken : trimSpace lease.token ≠ "") :
    bench w handler s (.ack lease) =
      (.ok (),{ s with slot := { s.slot with leased := none }, log := s.log ++ [.acked] }) := by
  simp only [bench,eval_ack w lease s.slot htoken]
  rfl

theorem handleFailure_retry (hdisp : (decision cfg job failure).disposition = .delayedRetry)
    (htoken : trimSpace lease.token ≠ "")
    (hs : s.slot.leased = some (.envelope (some job))) (hvalid : job.Valid)
    (hqueue : trimSpace job.queue = trimSpace w.queue)
    (hcreated : inYearRange job.createdAt = true) (hclock : ClockInRange w cfg)
    (hi : 0 ≤ cfg.retry.initialBackoff) (hm : 0 ≤ cfg.retry.maxBackoff) :
    ∃ failedAt runAt reads, inYearRange runAt = true ∧
      (handleFailure cfg job lease failure).eval (bench w handler) s =
      (.ok (),{ s with
        slot := { s.slot with
          queued := some (.envelope (some
            (retryJob job (some failure) failedAt runAt)))
          leased := none
          reads := reads }
        log := s.log ++ [Event.nacked (some (.envelope (some
          (retryJob job (some failure) failedAt runAt))))] }) := by
  have hd := decision_delay_bounds job failure hi hm
  have hnext := hclock s.slot.reads _ hd.1 hd.2
  obtain ⟨failedAt,runAt,reads,hrange,hnack⟩ := eval_nack w lease
    (w.times s.slot.reads + (decision cfg job failure).delay) (some failure)
    { s.slot with reads := s.slot.reads+1 } htoken hs hvalid
    hqueue hcreated hnext (clock_now hclock hi)
  refine ⟨failedAt,runAt,reads,hrange,?_⟩
  simp only [handleFailure,hdisp,Prog.eval_bind,Prog.eval_perform,bench,hnack,Bench.settle]
  rfl

theorem handleFailure_final (hdisp : (decision cfg job failure).disposition ≠ .delayedRetry)
    (htoken : trimSpace lease.token ≠ "") (hq : s.slot.queued = none)
    (hs : s.slot.leased = some (.envelope (some job))) (hvalid : job.Valid)
    (hqueue : trimSpace job.queue = trimSpace w.queue)
    (hmarshal : RedisBackend.marshalable job = true) (hclock : ∀ n, inYearRange (w.times n) = true) :
    ∃ ending : Ending, ending.events.head? = some (.handled (some failure)) ∧
      ((handleFailure cfg job lease failure).eval (bench w handler) s).2.log =
        s.log ++ ending.events.tail ∧
      Finished ((handleFailure cfg job lease failure).eval (bench w handler) s).2 := by
  obtain ⟨slot',hmove,hmq,hml⟩ := eval_moveToDLQ w (some failure) htoken hs hvalid
    hqueue hmarshal hclock
  have hdlq : (moveToDLQ lease failure).eval (bench w handler) s =
      (.ok (),{ s with slot := slot', log := s.log ++ [.deadLettered] }) := by
    simp only [moveToDLQ,Prog.eval_bind,Prog.eval_perform,bench,hmove,Bench.settle]
    rfl
  cases hd : (decision cfg job failure).disposition with
  | delayedRetry => exact absurd hd hdisp
  | immediateRetry => exact absurd hd (decision_ne_immediateRetry cfg job failure)
  | deadLetter =>
    refine ⟨.deadLetter failure,rfl,?_⟩
    simp only [handleFailure,hd,hdlq]
    exact ⟨rfl,hmq.trans hq,hml⟩
  | quarantine =>
    refine ⟨.quarantine failure (quarantineRecord job failure (decision cfg job failure)
      (w.times s.slot.reads)),rfl,?_⟩
    simp only [handleFailure,hd,quarantine_enabled hd,if_true,Prog.eval_bind,Prog.eval_perform,
      eval_bench_ack handler htoken]
    refine ⟨?_,hq,rfl⟩
    simp [bench,orFail,Ending.events]
  | drop =>
    refine ⟨.drop failure,rfl,?_⟩
    simp only [handleFailure,hd,Prog.eval_bind,Prog.eval_perform,eval_bench_ack handler htoken]
    exact ⟨rfl,hq,rfl⟩

theorem marshalable_of_pending (h : Pending w registered s job) :
    RedisBackend.marshalable job = true := by
  simp [RedisBackend.marshalable,h.runAt,h.created]

theorem serveOne_reserved (h : Pending w registered s job) (hvalid : job.Valid) :
    ∃ lease slot, trimSpace lease.token ≠ "" ∧ slot.queued = none ∧
      slot.leased = some (.envelope (some job)) ∧
      serveOne w cfg registered handler s =
        ((process cfg registered job lease).eval (bench w handler) { s with slot := slot }).2 := by
  have hq : trimSpace w.queue ≠ "" := by
    rw [← h.queue]
    exact hvalid.queue
  obtain ⟨lease,htok,_,hres⟩ := eval_reserve w cfg.leaseTTL .contextCanceled hq h.queued rfl (decodeQueued_of_valid hvalid)
  refine ⟨lease,{ s.slot with
    queued := none
    leased := some (.envelope (some job))
    reads := s.slot.reads+2 },?_,rfl,rfl,?_⟩
  · rw [htok]
    exact token_ne_blank w _
  · simp only [serveOne,h.queued,hres]

theorem serveOne_success (h : Pending w registered s job) (hvalid : job.Valid)
    (hnil : handler s.handled = none) :
    (serveOne w cfg registered handler s).log = s.log ++ Ending.success.events ∧
      Finished (serveOne w cfg registered handler s) := by
  obtain ⟨lease,slot,htoken,hq,hl,hserve⟩ := serveOne_reserved cfg handler h hvalid
  rw [hserve]
  simp only [process,h.registered,if_true,Prog.eval_bind,Prog.eval_perform,bench,hnil,joinErrors,
    eval_ack w lease _ htoken,Bench.settle]
  exact ⟨by simp [orFail,Ending.events],hq,rfl⟩

theorem serveOne_failed (h : Pending w registered s job) (hvalid : job.Valid)
    (hfail : handler s.handled = some failure) :
    ∃ lease s', trimSpace lease.token ≠ "" ∧ s'.slot.queued = none ∧
      s'.slot.leased = some (.envelope (some job)) ∧
      s'.log = s.log ++ [Event.handled (some failure)] ∧
      serveOne w cfg registered handler s =
        ((handleFailure cfg job lease failure).eval (bench w handler) s').2 := by
  obtain ⟨lease,slot,htoken,hq,hl,hserve⟩ := serveOne_reserved cfg handler h hvalid
  refine ⟨lease,{ s with
    slot := slot
    handled := s.handled+1
    log := s.log ++ [Event.handled (some failure)] },htoken,hq,hl,rfl,?_⟩
  rw [hserve]
  simp only [process,h.registered,if_true,Prog.eval_bind,Prog.eval_perform,bench,hfail,joinErrors]

theorem serveOne_retry (h : Pending w registered s job) (hvalid : job.Valid)
    (hclock : ClockInRange w cfg) (hi : 0 ≤ cfg.retry.initialBackoff)
    (hm : 0 ≤ cfg.retry.maxBackoff) (hfail : handler s.handled = some failure)
    (hdisp : (decision cfg job failure).disposition = .delayedRetry) :
    ∃ failedAt runAt,
      (serveOne w cfg registered handler s).log = s.log ++ [Event.handled (some failure),
        Event.nacked (some (.envelope (some (retryJob job (some failure) failedAt
          runAt))))] ∧
      Pending w registered (serveOne w cfg registered handler s)
        (retryJob job (some failure) failedAt runAt) := by
  obtain ⟨lease,s',htoken,hq,hl,hlog,hserve⟩ := serveOne_failed cfg handler h hvalid hfail
  obtain ⟨failedAt,runAt,reads,hrange,heval⟩ := handleFailure_retry cfg handler hdisp
    htoken hl hvalid h.queue h.created hclock hi hm
  refine ⟨failedAt,runAt,?_,?_⟩
  · rw [hserve,heval]
    simp [hlog]
  · rw [hserve,heval]
    exact ⟨rfl,rfl,h.queue,h.created,hrange,h.registered⟩

theorem serveOne_final (h : Pending w registered s job) (hvalid : job.Valid)
    (hclock : ∀ n, inYearRange (w.times n) = true) (hfail : handler s.handled = some failure)
    (hdisp : (decision cfg job failure).disposition ≠ .delayedRetry) :
    ∃ ending : Ending,
      (serveOne w cfg registered handler s).log = s.log ++ ending.events ∧
      Finished (serveOne w cfg registered handler s) := by
  obtain ⟨lease,s',htoken,hq,hl,hlog,hserve⟩ := serveOne_failed cfg handler h hvalid hfail
  obtain ⟨ending,hhead,htail,hfin⟩ := handleFailure_final cfg handler hdisp htoken hq hl
    hvalid h.queue (marshalable_of_pending h) hclock
  refine ⟨ending,?_,?_⟩
  · rw [hserve,htail,hlog,List.append_assoc]
    congr 1
    cases hev : ending.events with
    | nil => simp [hev] at hhead
    | cons e es =>
      rw [hev,List.head?_cons,Option.some.injEq] at hhead
      simp [hhead]
  · rw [hserve]
    exact hfin

theorem runQueueLoop_finished {cfg : WorkerConfig} {handler : ℕ → Option GoError} (h : Finished s) (rounds : ℕ) :
    runQueueLoop w cfg registered handler rounds s = s := by
  induction rounds with
  | zero => rfl
  | succ rounds ih =>
    have hone : serveOne w cfg registered handler s = s := by simp only [serveOne,h.queued]
    rw [runQueueLoop,hone,ih]

end Steps

theorem toInt_add_one {a : Int64} (h : a ≠ Int64.maxValue) : (a+1).toInt = a.toInt + 1 := by
  have hlo := Int64.le_toInt a
  have hhi := Int64.toInt_lt a
  have hne : a.toInt ≠ 2^63-1 := fun heq => h (Int64.toInt_inj.mp heq)
  rw [Int64.toInt_add,Int64.toInt_one]
  exact Int.bmod_eq_of_le (by omega) (by omega)

def retryEvents (r : GoError × Text) : List Event := [.handled (some r.1),.nacked (some r.2)]

def budget (cfg : WorkerConfig) (job : Job) : ℕ :=
  max 1 ((effectiveMaxAttempts cfg job).toInt - job.attempt.toInt).toNat

def WithinBudget (w : World) (cfg : WorkerConfig) (job : Job) (before : List Event)
    (s : Bench) : Prop :=
  ∃ (retries : List (GoError × Text)) (ending : Ending),
    s.log = before ++ (retries.flatMap retryEvents ++ ending.events) ∧
    retries.length + 1 ≤ budget cfg job ∧
    (∀ r ∈ retries, (RedisBackend.decodeQueued (trimSpace w.queue) r.2).isSome = true) ∧
    Finished s

theorem valid_retryJob {cfg : WorkerConfig} {job : Job} (reason : Option GoError)
    (failedAt runAt : Time) (h : job.Valid) (hne : job.attempt ≠ Int64.maxValue)
    (hlt : job.attempt+1 < effectiveMaxAttempts cfg job) :
    (retryJob job reason failedAt runAt).Valid := by
  refine ⟨h.id,h.name,h.queue,h.payload,?_,h.maxAttempts,?_⟩
  · have hattempt := Int64.le_iff_toInt_le.mp h.attempt
    have hzero : (0 : Int64).toInt = 0 := rfl
    rw [Int64.le_iff_toInt_le]
    simp only [retryJob,toInt_add_one hne]
    omega
  · intro hpos
    have heff : effectiveMaxAttempts cfg job = job.maxAttempts := by
      have hpos' : 0 < job.maxAttempts := hpos
      simp only [effectiveMaxAttempts,hpos',if_true,if_neg (Int64.not_le.mpr hpos')]
    exact Int64.le_of_lt (heff ▸ hlt)

section Runs

variable {w : World} {cfg : WorkerConfig} {registered : String → Bool}
  {handler : ℕ → Option GoError}

theorem runQueueLoop_within_budget (handler : ℕ → Option GoError) (rounds : ℕ)
    (hclock : ClockInRange w cfg) (hi : 0 ≤ cfg.retry.initialBackoff)
    (hm : 0 ≤ cfg.retry.maxBackoff) {s : Bench}
    {job : Job} (h : Pending w registered s job) (hvalid : job.Valid)
    (hfirst : job.attempt = Int64.maxValue → ∀ failure, handler s.handled = some failure →
      Retry.classify (some failure) ≠ .retryable) (hb : budget cfg job ≤ rounds) :
    WithinBudget w cfg job s.log (runQueueLoop w cfg registered handler rounds s) := by
  -- one reservation either ends the run or leaves a valid job with one attempt less to go
  induction rounds generalizing s job with
  | zero =>
    have hone : 1 ≤ budget cfg job := le_max_left _ _
    omega
  | succ rounds ih =>
    have hone : 1 ≤ budget cfg job := le_max_left _ _
    have ends : ∀ ending : Ending,
        (serveOne w cfg registered handler s).log = s.log ++ ending.events →
        Finished (serveOne w cfg registered handler s) →
        WithinBudget w cfg job s.log
          (runQueueLoop w cfg registered handler (rounds+1) s) := by
      intro ending hlog hfin
      rw [runQueueLoop,runQueueLoop_finished hfin]
      exact ⟨[],ending,by simpa using hlog,hone,by simp,hfin⟩
    cases hout : handler s.handled with
    | none =>
      obtain ⟨hlog,hfin⟩ := serveOne_success cfg handler h hvalid hout
      exact ends .success hlog hfin
    | some failure =>
      by_cases hdisp : (decision cfg job failure).disposition = .delayedRetry
      · obtain ⟨hclass,hlt⟩ := (decision_delayedRetry_iff cfg job failure).mp hdisp
        have hne : job.attempt ≠ Int64.maxValue := fun heq => hfirst heq failure hout hclass
        obtain ⟨failedAt,runAt,hlog,hpending⟩ := serveOne_retry cfg handler h hvalid hclock hi hm hout hdisp
        have hvalid' := valid_retryJob (some failure) failedAt runAt hvalid hne hlt
        have hstep := toInt_add_one hne
        have hltInt := Int64.lt_iff_toInt_lt.mp hlt
        have hmax := Int64.toInt_lt (effectiveMaxAttempts cfg job)
        have hbudget : budget cfg (retryJob job (some failure) failedAt runAt) + 1 =
            budget cfg job := by
          have hsame : effectiveMaxAttempts cfg (retryJob job (some failure) failedAt
            runAt) = effectiveMaxAttempts cfg job := rfl
          simp only [budget,hsame]
          simp only [retryJob,hstep]
          omega
        obtain ⟨retries,ending,hrun,hlen,hall,hfin⟩ := ih hpending hvalid' (by
          intro heq
          have htop : (job.attempt+1).toInt = Int64.maxValue.toInt := congrArg Int64.toInt heq
          rw [Int64.toInt_maxValue] at htop
          omega) (by omega)
        refine ⟨(failure,.envelope (some (retryJob job (some failure) failedAt
          runAt))) :: retries,ending,?_,?_,?_,hfin⟩
        · rw [runQueueLoop,hrun,hlog]
          simp [retryEvents]
        · rw [List.length_cons]
          omega
        · intro r hr
          rcases List.mem_cons.mp hr with rfl | hr
          · simp [decodeQueued_of_valid hvalid']
          · exact hall r hr
      · obtain ⟨ending,hlog,hfin⟩ := serveOne_final cfg handler h hvalid (clock_now hclock hi)
          hout hdisp
        exact ends ending hlog hfin

theorem eval_pushEncoded (src : RedisBackend.Source) (job : Job) (now : Time) (slot : Slot)
    (hqueue : trimSpace job.queue = trimSpace w.queue) :
    (RedisBackend.pushEncoded w.backend src job (.envelope (some job)) now).eval (redis w) slot =
      (.ok (),{ slot with queued := some (.envelope (some job)) }) := by
  have hready : RedisBackend.readyKey w.backend job.queue =
      RedisBackend.readyKey w.backend w.queue := by simp [RedisBackend.readyKey,hqueue]
  have hdelayed : RedisBackend.delayedKey w.backend job.queue =
      RedisBackend.delayedKey w.backend w.queue := by simp [RedisBackend.delayedKey,hqueue]
  unfold RedisBackend.pushEncoded
  split_ifs
  · simp [redis,Slot.put,hready]
  · simp [redis,Slot.put,hdelayed]

theorem pending_of_enqueue (registered : String → Bool) {job : Job} {slot : Slot}
    (haccept : (RedisBackend.enqueue w.backend job).eval (redis w) ⟨none,none,none,0⟩ =
      (.ok (),slot)) (hqueue : trimSpace job.queue = trimSpace w.queue)
    (hreg : registered (trimSpace job.name) = true) : ∃ createdAt,
      (RedisBackend.stamp job createdAt).Valid ∧
        Pending w registered ⟨slot,0,[]⟩ (RedisBackend.stamp job createdAt) := by
  obtain ⟨createdAt,reads,_,hor⟩ := eval_orNow w job.createdAt ⟨none,none,none,0⟩
  refine ⟨createdAt,?_⟩
  simp only [RedisBackend.enqueue,RedisBackend.enqueueFrom,Prog.eval_bind,eval_ensureOpen,
    Prog.eval_liftExcept] at haccept
  cases hv : job.validate with
  | error e => simp [hv] at haccept
  | ok _ =>
    have hvalid := (Job.validate_ok_iff job).mp hv
    simp only [hv,hor] at haccept
    cases hm : RedisBackend.marshalEnvelope (RedisBackend.stamp job createdAt) with
    | error e => simp [hm] at haccept
    | ok encoded =>
      have hmarshal : RedisBackend.marshalable (RedisBackend.stamp job createdAt) = true := by
        by_contra hno
        simp [RedisBackend.marshalEnvelope,hno] at hm
      have henc : encoded = .envelope (some (RedisBackend.stamp job createdAt)) := by
        simpa [RedisBackend.marshalEnvelope,hmarshal] using hm.symm
      subst henc
      rw [RedisBackend.marshalable,Bool.and_eq_true] at hmarshal
      have hpush := eval_pushEncoded (w := w) .client (RedisBackend.stamp job createdAt)
        (w.times reads) ⟨none,none,none,reads+1⟩ hqueue
      simp only [hm,Prog.eval_bind,eval_now,hpush,Prod.mk.injEq,true_and] at haccept
      subst haccept
      exact ⟨⟨hvalid.id,hvalid.name,hvalid.queue,hvalid.payload,hvalid.attempt,
        hvalid.maxAttempts,hvalid.within⟩,rfl,rfl,hqueue,hmarshal.2,hmarshal.1,hreg⟩

theorem eval_reserve_discard {queue : String} (leaseFor : Duration) (ctxErr : GoError)
    {slot : Slot} {raw : Text} (hqueue : trimSpace queue ≠ "") (hs : slot.queued = some raw)
    (hblank : raw.isBlank = false)
    (hjob : RedisBackend.decodeQueued (trimSpace queue) raw = none) :
    (RedisBackend.reserve w.backend queue leaseFor ctxErr 1).eval (redis w) slot =
      (.error ctxErr,{ slot with queued := none, leased := none, reads := slot.reads+2 }) := by
  have htoken : trimSpace (RedisBackend.tokenLease (w.tokens slot.reads)).token ≠ "" :=
    token_ne_blank w _
  simp [RedisBackend.reserve,RedisBackend.reserveLoop,RedisBackend.randomToken,RedisBackend.now,
    eval_ensureOpen,hqueue,redis,hs,hblank,hjob,eval_ack w _ _ htoken]

theorem serveOne_discard (cfg : WorkerConfig) (handler : ℕ → Option GoError) {s : Bench}
    {job : Job} (h : Pending w registered s job)
    (hne : trimSpace job.queue ≠ "") (hinvalid : ¬ job.Valid) :
    (serveOne w cfg registered handler s).log =
        s.log ++ [Event.discarded (.envelope (some job))] ∧
      Finished (serveOne w cfg registered handler s) := by
  have hres := eval_reserve_discard (w := w) cfg.leaseTTL .contextCanceled (h.queue ▸ hne) h.queued rfl
    (decodeQueued_of_invalid _ hne hinvalid)
  simp only [serveOne,h.queued,hres]
  exact ⟨trivial,rfl,rfl⟩

theorem wrapped_not_valid {job : Job} (reason : Option GoError) (failedAt runAt : Time)
    (h : job.attempt = Int64.maxValue) :
    ¬ (retryJob job reason failedAt runAt).Valid := by
  intro hvalid
  have hattempt := hvalid.attempt
  simp only [retryJob,h] at hattempt
  exact absurd hattempt (by decide)

theorem overflow_not_within_budget (handler : ℕ → Option GoError) (rounds : ℕ)
    (hclock : ClockInRange w cfg) (hi : 0 ≤ cfg.retry.initialBackoff)
    (hm : 0 ≤ cfg.retry.maxBackoff) {s : Bench}
    {job : Job} {failure : GoError} (h : Pending w registered s job) (hvalid : job.Valid)
    (hmax : job.attempt = Int64.maxValue) (hout : handler s.handled = some failure)
    (hclass : Retry.classify (some failure) = .retryable) :
    ¬ WithinBudget w cfg job s.log (runQueueLoop w cfg registered handler (rounds+1) s) := by
  have hlt : job.attempt+1 < effectiveMaxAttempts cfg job := by
    have hpos : 0 < effectiveMaxAttempts cfg job := by
      unfold effectiveMaxAttempts
      dsimp only
      split_ifs <;> simp_all
    rw [hmax]
    exact Int64.lt_trans (by decide) hpos
  have hdisp := (decision_delayedRetry_iff cfg job failure).mpr ⟨hclass,hlt⟩
  obtain ⟨failedAt,runAt,hlog,hpending⟩ := serveOne_retry cfg handler h hvalid hclock hi hm hout hdisp
  have hinvalid := wrapped_not_valid (some failure) failedAt runAt hmax
  rintro ⟨retries,ending,hrun,_,hall,_⟩
  have hmore : ∃ rest, (runQueueLoop w cfg registered handler (rounds+1) s).log =
      s.log ++ ([Event.handled (some failure),Event.nacked (some (.envelope (some
        (retryJob job (some failure) failedAt runAt))))] ++ rest) := by
    cases rounds with
    | zero => exact ⟨[],by rw [runQueueLoop,runQueueLoop,hlog,List.append_nil]⟩
    | succ rounds =>
      obtain ⟨hdis,hfin⟩ := serveOne_discard cfg handler hpending
        hvalid.queue hinvalid
      refine ⟨[.discarded (.envelope (some
        (retryJob job (some failure) failedAt runAt)))],?_⟩
      rw [runQueueLoop,runQueueLoop,runQueueLoop_finished hfin,hdis,hlog]
      simp
  obtain ⟨rest,hrest⟩ := hmore
  rw [hrest,List.append_cancel_left_eq] at hrun
  cases retries with
  | nil => cases ending <;> simp [Ending.events] at hrun
  | cons r retries =>
    simp only [retryEvents,List.flatMap_cons,List.cons_append,List.nil_append,List.cons.injEq,
      Event.nacked.injEq,Option.some.injEq] at hrun
    have hdecoded := hall r List.mem_cons_self
    have hnone : RedisBackend.decodeQueued (trimSpace w.queue) (.envelope (some
        (retryJob job (some failure) failedAt runAt))) = none :=
      decodeQueued_of_invalid _ hvalid.queue hinvalid
    rw [← hrun.2.1,hnone] at hdecoded
    cases hdecoded

theorem normalize_backoff_nonneg (cfg : WorkerConfig) :
    0 ≤ cfg.normalize.retry.initialBackoff ∧ 0 ≤ cfg.normalize.retry.maxBackoff := by
  simp only [WorkerConfig.normalize,Retry.Budget.normalize]
  constructor
  · split_ifs with h
    · decide
    · exact (lt_of_not_ge h).le
  · split_ifs with h
    · decide
    · exact (lt_of_not_ge h).le

theorem worker_within_budget_iff {job : Job} {slot : Slot} {rounds : ℕ}
    (haccept : (RedisBackend.enqueue w.backend job).eval (redis w) ⟨none,none,none,0⟩ =
      (.ok (),slot)) (hqueue : trimSpace job.queue = trimSpace w.queue)
    (hreg : registered (trimSpace job.name) = true) (hclock : ClockInRange w cfg.normalize)
    (hrounds : budget cfg.normalize job ≤ rounds) :
    WithinBudget w cfg.normalize job []
        (runQueueLoop w cfg.normalize registered handler rounds ⟨slot,0,[]⟩) ↔
      ¬ (job.attempt = Int64.maxValue ∧
        ∃ failure, handler 0 = some failure ∧ Retry.classify (some failure) = .retryable) := by
  obtain ⟨hi,hm⟩ := normalize_backoff_nonneg cfg
  obtain ⟨createdAt,hvalid,hpending⟩ := pending_of_enqueue registered haccept hqueue hreg
  constructor
  · rintro hwithin ⟨hmax,failure,hout,hclass⟩
    have hone : 1 ≤ budget cfg.normalize job := le_max_left _ _
    obtain ⟨n,rfl⟩ : ∃ n, rounds = n+1 := ⟨rounds-1,by omega⟩
    exact overflow_not_within_budget handler n hclock hi hm hpending hvalid hmax hout hclass hwithin
  · intro hno
    have hrun := runQueueLoop_within_budget handler rounds hclock hi hm
      hpending hvalid (fun hmax failure hout hclass => hno ⟨hmax,failure,hout,hclass⟩) hrounds
    exact hrun

end Runs

def oneSecond : World where
  config := ⟨"","",0⟩
  queue := "q"
  times _ := second
  tokens _ := "a1"
  hex _ := by decide

def timedOut : GoError := .text "timed out"

theorem clockInRange_oneSecond : ClockInRange oneSecond plainWorker.normalize := by
  have hrange : ∀ d : Int, 0 ≤ d → d ≤ 60000000000 → inYearRange (1000000000+d) = true := by
    intro d hd hmax
    rw [inYearRange_iff]
    omega
  intro n d hd hmax
  have hb : max plainWorker.normalize.retry.initialBackoff
      plainWorker.normalize.retry.maxBackoff = 60000000000 := by decide
  exact hrange d hd (hb ▸ hmax)

theorem mailAt_accepted (attempt maxAttempts : Int64)
    (h : (mailAt attempt maxAttempts).validate = .ok ()) :
    (RedisBackend.enqueue oneSecond.backend (mailAt attempt maxAttempts)).eval (redis oneSecond)
      ⟨none,none,none,0⟩ =
    (.ok (),⟨some (.envelope (some (mailAt attempt maxAttempts))),none,none,1⟩) := by
  have hcreated : RedisBackend.orNow (mailAt attempt maxAttempts).createdAt = pure 0 := rfl
  have hstamp : RedisBackend.stamp (mailAt attempt maxAttempts) 0 = mailAt attempt maxAttempts :=
    rfl
  have hmarshal : RedisBackend.marshalEnvelope (mailAt attempt maxAttempts) =
    .ok (.envelope (some (mailAt attempt maxAttempts))) := rfl
  have hpush := eval_pushEncoded (w := oneSecond) .client (mailAt attempt maxAttempts) second
    ⟨none,none,none,1⟩ rfl
  simp only [RedisBackend.enqueue,RedisBackend.enqueueFrom,Prog.eval_bind,eval_ensureOpen,h,
    Prog.eval_liftExcept,hcreated,Prog.eval_pure,hstamp,hmarshal,eval_now]
  exact hpush

theorem worker_within_budget_after_two_failures :
    WithinBudget oneSecond plainWorker.normalize (mailAt 0 3) []
      (runQueueLoop oneSecond plainWorker.normalize (· = "mail")
        (fun n => if n < 2 then some timedOut else none) 3
        ⟨⟨some (.envelope (some (mailAt 0 3))),none,none,1⟩,0,[]⟩) := by
  refine (worker_within_budget_iff (mailAt_accepted 0 3 (by decide +kernel)) rfl (by decide +kernel)
    clockInRange_oneSecond (by decide)).mpr ?_
  rintro ⟨hmax,_⟩
  exact absurd hmax (by decide)

theorem attempt_overflow_discards_job :
    (RedisBackend.enqueue oneSecond.backend (mailAt Int64.maxValue 0)).eval (redis oneSecond)
      ⟨none,none,none,0⟩ =
      (.ok (),⟨some (.envelope (some (mailAt Int64.maxValue 0))),none,none,1⟩) ∧
    ∀ rounds, ¬ WithinBudget oneSecond plainWorker.normalize (mailAt Int64.maxValue 0) []
      (runQueueLoop oneSecond plainWorker.normalize (· = "mail") (fun _ => some timedOut)
        (rounds+1) ⟨⟨some (.envelope (some (mailAt Int64.maxValue 0))),none,none,1⟩,0,[]⟩) := by
  have haccept := mailAt_accepted Int64.maxValue 0 (by decide +kernel)
  refine ⟨haccept,?_⟩
  intro rounds
  obtain ⟨hi,hm⟩ := normalize_backoff_nonneg plainWorker
  obtain ⟨createdAt,hvalid,hpending⟩ := pending_of_enqueue (· = "mail") haccept
    rfl (by decide +kernel)
  have hover := overflow_not_within_budget (fun _ => some timedOut) rounds
    clockInRange_oneSecond hi hm hpending hvalid rfl rfl rfl
  exact hover

end Nimburion.Jobs.Worker
