import Nimburion.EventBus.RequeueSafety

namespace Nimburion.EventBus.RetryDLQ.Report
open Interaction GoText GoTime Decimal Resilience

def isNow : Event Ans → Bool
  | ⟨.now,_⟩ => true
  | _ => false

-- the outcome of the handler's n-th invocation, the clock's n-th reading; nothing cancels the context
structure Environment where
  outcome : ℕ → Attempt
  reading : ℕ → Time
  rest : Oracle

def Environment.oracle (env : Environment) : Oracle
  | tr, .now => env.reading (tr.countP isNow)
  | tr, .handle _ _ => env.outcome (tr.countP isHandled)
  | _, .wait _ => .ok ()
  | tr, .quarantine record => env.rest tr (.quarantine record)
  | tr, .stack => env.rest tr .stack
  | tr, .marshal payload => env.rest tr (.marshal payload)
  | tr, .publish topic message => env.rest tr (.publish topic message)

def failure : Event Ans → Option GoError
  | ⟨.handle _ _,attempt⟩ => withTimeout attempt
  | _ => none

def AllFailed (tr : Trace) : Prop := ∀ ev ∈ tr, isHandled ev = true → failure ev ≠ none

def OnlyRetryable (tr : Trace) : Prop :=
  ∀ ev ∈ tr, isHandled ev = true → Retry.classify (failure ev) = .retryable

-- the latest event of a trace is its first
def lastError (tr : Trace) : Option GoError := (tr.find? isHandled).bind failure

def recorded : Event Ans → Option (Int64 × String)
  | ⟨.marshal payload,_⟩ => some (payload.attemptCount,payload.failureReason)
  | ⟨.quarantine record,_⟩ => some (record.attempt,record.reason)
  | _ => none

structure Reports (cfg : Config) (tr : Trace) : Prop where
  written : ∃ attempts err, tr.filterMap recorded = [(attempts,err.message)] ∧
    attempts.toInt = tr.countP isHandled ∧ lastError tr = some err
  invoked : OnlyRetryable tr → (tr.countP isHandled : Int) = cfg.maxRetries.toInt+1

def Retried (attempt : Attempt) : Prop :=
  ∃ err, withTimeout attempt = some err ∧ Retry.classify (some err) = .retryable

-- the n-th failure is the clock's reading 2n-1, the next attempt starts at the reading after it
def Admitted (cfg : Config) (env : Environment) : Prop :=
  ∀ n : ℕ, cfg.circuitBreakerFailures ≤ n → (n : Int) ≤ cfg.maxRetries.toInt →
    (∀ k < n, Retried (env.outcome k)) →
    cfg.circuitBreakerReset < env.reading (2*n)-env.reading (2*n-1)

def run {α : Type} (env : Environment) (p : M α) (tr : Trace) : Except GoError α × Trace :=
  Prog.eval (Prog.observe env.oracle) p tr

section Breaker

variable {cfg : Config} {env : Environment} {k : ℕ} {cb : CircuitBreaker}

-- the breaker after k attempts that all ran and failed
structure Counts (cfg : Config) (env : Environment) (k : ℕ) (cb : CircuitBreaker) : Prop where
  max : cb.maxFailures = cfg.circuitBreakerFailures
  timeout : cb.timeout = cfg.circuitBreakerReset
  closed : (k : Int) < cfg.circuitBreakerFailures → cb.state = .closed ∧ cb.failures = k
  tripped : cfg.circuitBreakerFailures ≤ k →
    cb.state = .open_ ∧ cb.lastFailTime = env.reading (2*k-1)

theorem counts_new (env : Environment) (hpos : 0 < cfg.circuitBreakerFailures) :
    Counts cfg env 0 (newCircuitBreaker cfg.circuitBreakerFailures cfg.circuitBreakerReset) :=
  ⟨rfl,rfl,fun _ => ⟨rfl,rfl⟩,fun hle => absurd hpos (Int.not_lt.mpr hle)⟩

theorem counts_failed (hmax : cb.maxFailures = cfg.circuitBreakerFailures)
    (htimeout : cb.timeout = cfg.circuitBreakerReset)
    (hrunning : (cb.state = .closed ∧ cb.failures = k ∧ (k : Int) < cfg.circuitBreakerFailures) ∨
      (cb.state = .halfOpen ∧ cfg.circuitBreakerFailures ≤ k)) :
    Counts cfg env (k+1) (cb.recordFailure (env.reading (2*k+1))) := by
  have hlast : 2*(k+1)-1 = 2*k+1 := by omega
  obtain ⟨hstate,hfailures,hlt⟩ | ⟨hstate,hle⟩ := hrunning
  · by_cases hlimit : cfg.circuitBreakerFailures ≤ (k : Int)+1
    · refine ⟨?_,?_,fun hbelow => ?_,fun _ => ?_⟩
      · simp [CircuitBreaker.recordFailure,hstate,hmax]
      · simp [CircuitBreaker.recordFailure,hstate,htimeout]
      · exact absurd hlimit (Int.not_le.mpr (by simpa using hbelow))
      · simp [CircuitBreaker.recordFailure,hstate,hmax,hfailures,hlimit,hlast]
    · refine ⟨?_,?_,fun _ => ?_,fun hreached => ?_⟩
      · simp [CircuitBreaker.recordFailure,hstate,hmax]
      · simp [CircuitBreaker.recordFailure,hstate,htimeout]
      · simp [CircuitBreaker.recordFailure,hstate,hmax,hfailures,hlimit]
      · exact absurd (by simpa using hreached) hlimit
  · refine ⟨?_,?_,fun hbelow => ?_,fun _ => ?_⟩
    · simp [CircuitBreaker.recordFailure,hstate,hmax]
    · simp [CircuitBreaker.recordFailure,hstate,htimeout]
    · push_cast at hbelow
      omega
    · simp [CircuitBreaker.recordFailure,hstate,hlast]

theorem Counts.admission (h : Counts cfg env k cb) :
    (∃ cb', cb.canExecute (env.reading (2*k)) = (true,cb') ∧
      (cfg.circuitBreakerFailures ≤ k →
        cfg.circuitBreakerReset < env.reading (2*k)-env.reading (2*k-1)) ∧
      Counts cfg env (k+1) (cb'.recordFailure (env.reading (2*k+1)))) ∨
    (cb.canExecute (env.reading (2*k)) = (false,cb) ∧ cfg.circuitBreakerFailures ≤ k ∧
      ¬ cfg.circuitBreakerReset < env.reading (2*k)-env.reading (2*k-1)) := by
  by_cases hbelow : (k : Int) < cfg.circuitBreakerFailures
  · obtain ⟨hstate,hfailures⟩ := h.closed hbelow
    refine .inl ⟨cb,?_,fun hle => absurd hbelow (Int.not_lt.mpr hle),?_⟩
    · simp [CircuitBreaker.canExecute,hstate]
    · exact counts_failed h.max h.timeout (.inl ⟨hstate,hfailures,hbelow⟩)
  · have hreached := Int.not_lt.mp hbelow
    obtain ⟨hstate,hlast⟩ := h.tripped hreached
    by_cases helapsed : cfg.circuitBreakerReset < env.reading (2*k)-env.reading (2*k-1)
    · refine .inl ⟨{ cb with state := .halfOpen, successes := 0 },?_,fun _ => helapsed,?_⟩
      · simp [CircuitBreaker.canExecute,hstate,h.timeout,hlast,helapsed]
      · exact counts_failed h.max h.timeout (.inr ⟨rfl,hreached⟩)
    · refine .inr ⟨?_,hreached,helapsed⟩
      simp [CircuitBreaker.canExecute,hstate,h.timeout,hlast,helapsed]

end Breaker

section Attempts

variable {cfg : Config} {env : Environment} {message : Message} {cb cb' : CircuitBreaker} {tr tr' : Trace}

theorem countP_handled_now (t : Time) (tr : Trace) :
    (⟨.now,t⟩ :: tr : Trace).countP isHandled = tr.countP isHandled := by
  simp [isHandled]

variable (cfg message) in
theorem run_execute_held (hcan : cb.canExecute (env.reading (tr.countP isNow)) = (false,cb')) :
    run env (execute cfg message cb) tr = (.ok (some errCircuitBreakerOpen,cb'),
      ⟨.now,env.reading (tr.countP isNow)⟩ :: tr) := by
  simp only [run,execute,now,Prog.eval_bind,Prog.eval_perform,Prog.observe,Environment.oracle,hcan,
    Prog.eval_pure]

variable (cfg message) in
theorem run_execute_admitted (hcan : cb.canExecute (env.reading (tr.countP isNow)) = (true,cb')) :
    run env (execute cfg message cb) tr =
      let handled : Trace :=
        ⟨.handle message (budget cfg).attemptTimeout,env.outcome (tr.countP isHandled)⟩ ::
          ⟨.now,env.reading (tr.countP isNow)⟩ :: tr
      match withTimeout (env.outcome (tr.countP isHandled)) with
      | some err => (.ok (some err,cb'.recordFailure (env.reading (tr.countP isNow+1))),
          ⟨.now,env.reading (tr.countP isNow+1)⟩ :: handled)
      | none => (.ok (none,cb'.recordSuccess),handled) := by
  simp only [run,execute,now,Prog.eval_bind,Prog.eval_perform,Prog.observe,Environment.oracle,hcan]
  rw [countP_handled_now]
  cases withTimeout (env.outcome (tr.countP isHandled)) with
  | none => rfl
  | some err =>
    have hread : (⟨.handle message (budget cfg).attemptTimeout,env.outcome (tr.countP isHandled)⟩ ::
        ⟨.now,env.reading (tr.countP isNow)⟩ :: tr : Trace).countP isNow = tr.countP isNow+1 := by
      rw [List.countP_cons,List.countP_cons]
      rfl
    simp only [Prog.eval_bind,Prog.eval_perform,Prog.observe,Environment.oracle,hread,Prog.eval_pure]

theorem run_retryLoop_ok {room : ℕ} {attempt attemptsUsed : Int64} {lastErr : Option GoError}
    (hexec : run env (execute cfg message cb) tr = (.ok (none,cb'),tr')) :
    run env (retryLoop cfg message (room+1) attempt cb lastErr attemptsUsed) tr =
      (.ok .processed,tr') := by
  simp only [run] at hexec
  simp only [run,retryLoop,Prog.eval_bind,hexec,Prog.eval_pure]

theorem run_retryLoop_failed (room : ℕ) (attempt attemptsUsed : Int64) (lastErr : Option GoError)
    {err : GoError} (hexec : run env (execute cfg message cb) tr = (.ok (some err,cb'),tr'))
    (hpos : 0 < (budget cfg).maxAttempts) :
    (Retry.classify (some err) = .retryable ∧ attempt < (budget cfg).maxAttempts ∧ ∃ delay,
      run env (retryLoop cfg message (room+1) attempt cb lastErr attemptsUsed) tr =
        run env (retryLoop cfg message room (attempt+1) cb' (some err) attempt)
          (⟨.wait delay,.ok ()⟩ :: tr')) ∨
    (¬ (Retry.classify (some err) = .retryable ∧ attempt < (budget cfg).maxAttempts) ∧
      run env (retryLoop cfg message (room+1) attempt cb lastErr attemptsUsed) tr =
        (.ok (.gaveUp (some err) attempt),tr')) := by
  have hdecide := Retry.decide_delayedRetry_iff (Retry.classify (some err)) attempt
    (budget cfg).maxAttempts (budget cfg) ⟨true,false⟩
  have hle : ¬ (budget cfg).maxAttempts ≤ 0 := by
    rw [Int64.le_iff_toInt_le]
    rw [Int64.lt_iff_toInt_lt] at hpos
    omega
  rw [if_neg hle] at hdecide
  simp only [run] at hexec
  by_cases hretry : Retry.classify (some err) = .retryable ∧ attempt < (budget cfg).maxAttempts
  · refine .inl ⟨hretry.1,hretry.2,(Retry.decide (Retry.classify (some err)) attempt
      (budget cfg).maxAttempts (budget cfg) ⟨true,false⟩).delay,?_⟩
    simp only [run,retryLoop,Prog.eval_bind,hexec]
    rw [if_neg (not_not.mpr (hdecide.mpr hretry))]
    rfl
  · refine .inr ⟨hretry,?_⟩
    simp only [run,retryLoop,Prog.eval_bind,hexec]
    rw [if_pos fun h => hretry (hdecide.mp h)]
    rfl

end Attempts

section Loop

variable {cfg : Config} {env : Environment} {message : Message} {cb : CircuitBreaker} {tr : Trace}

inductive Ending (cfg : Config) (env : Environment) (tr : Trace) : Ended → Prop where
  | processed (hfailed : ¬ AllFailed tr) : Ending cfg env tr .processed
  | reported {err : GoError} {attemptsUsed : Int64} (hused : attemptsUsed.toInt = tr.countP isHandled)
      (hlast : lastError tr = some err)
      (hlimit : Retry.classify (some err) = .retryable → attemptsUsed.toInt = cfg.maxRetries.toInt+1)
      (hadmitted : Admitted cfg env) : Ending cfg env tr (.gaveUp (some err) attemptsUsed)
  | heldBack {lastErr : Option GoError} {attemptsUsed : Int64}
      (hused : (tr.countP isHandled : Int) < attemptsUsed.toInt) (hheld : ¬ Admitted cfg env) :
      Ending cfg env tr (.gaveUp lastErr attemptsUsed)

theorem toInt_succ {a b : Int64} (h : a < b) : (a+1).toInt = a.toInt+1 := by
  rw [Int64.lt_iff_toInt_lt] at h
  have hb := b.toInt_lt
  have ha := a.le_toInt
  have hone : (1 : Int64).toInt = 1 := rfl
  rw [Int64.toInt_add,hone,Int.bmod_eq_of_le (by omega) (by omega)]

theorem toInt_next {k : ℕ} {attempt attempts : Int64} (hlt : attempt < attempts)
    (hattempt : attempt.toInt = k+1) : (attempt+1).toInt = ((k+1 : ℕ) : Int)+1 := by
  rw [toInt_succ hlt,hattempt]
  push_cast
  rfl

def attempted (env : Environment) (cfg : Config) (message : Message) (tr : Trace) : Trace :=
  ⟨.handle message (budget cfg).attemptTimeout,env.outcome (tr.countP isHandled)⟩ ::
    ⟨.now,env.reading (tr.countP isNow)⟩ :: tr

theorem countP_handled_attempted (env : Environment) (cfg : Config) (message : Message) (tr : Trace) :
    (attempted env cfg message tr).countP isHandled = tr.countP isHandled+1 := by
  rw [attempted,List.countP_cons,List.countP_cons]
  rfl

theorem not_allFailed_attempted (hok : withTimeout (env.outcome (tr.countP isHandled)) = none) :
    ¬ AllFailed (attempted env cfg message tr) :=
  fun h => h _ List.mem_cons_self rfl hok

-- an attempt that was held back is counted like the others, and the count never recovers
theorem loop_heldBack {room k : ℕ} {attempt attemptsUsed : Int64} {lastErr : Option GoError}
    (hpos : 0 < (budget cfg).maxAttempts) (hattempt : attempt.toInt = k+1)
    (hused : attemptsUsed.toInt = k) (hbehind : tr.countP isHandled < k)
    (hunwritten : tr.filterMap recorded = []) (hheld : ¬ Admitted cfg env) :
    ∃ ended tr', run env (retryLoop cfg message room attempt cb lastErr attemptsUsed) tr =
      (.ok ended,tr') ∧ Ending cfg env tr' ended ∧ tr'.filterMap recorded = [] := by
  induction room generalizing k attempt attemptsUsed cb lastErr tr with
  | zero => exact ⟨_,tr,rfl,.heldBack (by omega) hheld,hunwritten⟩
  | succ room ih =>
    have hnext : ∀ {err cb' tr'}, run env (execute cfg message cb) tr = (.ok (some err,cb'),tr') →
        tr'.countP isHandled < k+1 → tr'.filterMap recorded = [] →
        ∃ ended tr', run env (retryLoop cfg message (room+1) attempt cb lastErr attemptsUsed) tr =
          (.ok ended,tr') ∧ Ending cfg env tr' ended ∧ tr'.filterMap recorded = [] := by
      intro err cb' tr' hexec hcount hrecorded
      obtain ⟨_,hlt,delay,hloop⟩ | ⟨_,hloop⟩ := run_retryLoop_failed room attempt attemptsUsed
        lastErr hexec hpos
      · rw [hloop]
        exact ih (toInt_next hlt hattempt) hattempt (by simpa [isHandled] using hcount) hrecorded
      · exact ⟨_,tr',hloop,.heldBack (by omega) hheld,hrecorded⟩
    rcases hcan : cb.canExecute (env.reading (tr.countP isNow)) with ⟨_ | _,cb'⟩
    · refine hnext (run_execute_held cfg message hcan) ?_ hunwritten
      rw [countP_handled_now]
      omega
    · have hexec := run_execute_admitted cfg message hcan
      have hcount := countP_handled_attempted env cfg message tr
      cases herr : withTimeout (env.outcome (tr.countP isHandled)) with
      | none =>
        rw [herr] at hexec
        exact ⟨_,_,run_retryLoop_ok hexec,.processed (not_allFailed_attempted herr),
          hunwritten⟩
      | some err =>
        rw [herr] at hexec
        refine hnext hexec ?_ hunwritten
        change (⟨.now,_⟩ :: attempted env cfg message tr : Trace).countP isHandled < k+1
        rw [countP_handled_now,hcount]
        omega

-- the attempts so far all ran and failed with a retryable error
structure Level (cfg : Config) (env : Environment) (k : ℕ) (tr : Trace) : Prop where
  handled : tr.countP isHandled = k
  read : tr.countP isNow = 2*k
  unwritten : tr.filterMap recorded = []
  retried : ∀ i < k, Retried (env.outcome i)
  admitted : ∀ n < k, cfg.circuitBreakerFailures ≤ n →
    cfg.circuitBreakerReset < env.reading (2*n)-env.reading (2*n-1)

theorem Level.next {k : ℕ} {err : GoError} (h : Level cfg env k tr) (delay : Duration)
    (herr : withTimeout (env.outcome k) = some err) (hretryable : Retry.classify (some err) = .retryable)
    (hadmitted : cfg.circuitBreakerFailures ≤ k →
      cfg.circuitBreakerReset < env.reading (2*k)-env.reading (2*k-1)) (t : Time) :
    Level cfg env (k+1) (⟨.wait delay,.ok ()⟩ :: ⟨.now,t⟩ :: attempted env cfg message tr) := by
  refine ⟨?_,?_,?_,fun i hi => ?_,fun n hn => ?_⟩
  · have hcount := countP_handled_attempted env cfg message tr
    rw [h.handled] at hcount
    simpa [isHandled] using hcount
  · simp only [attempted,List.countP_cons,h.read]
    rfl
  · simpa [recorded,attempted] using h.unwritten
  · rcases Nat.lt_succ_iff_lt_or_eq.mp hi with hlt | rfl
    · exact h.retried i hlt
    · exact ⟨err,herr,hretryable⟩
  · rcases Nat.lt_succ_iff_lt_or_eq.mp hn with hlt | rfl
    · exact h.admitted n hlt
    · exact hadmitted

theorem Level.admitted_of_end {k : ℕ} {err : GoError} (h : Level cfg env k tr)
    (herr : withTimeout (env.outcome k) = some err)
    (hadmitted : cfg.circuitBreakerFailures ≤ k →
      cfg.circuitBreakerReset < env.reading (2*k)-env.reading (2*k-1))
    (hend : Retry.classify (some err) = .retryable → (k : Int) = cfg.maxRetries.toInt) :
    Admitted cfg env := by
  intro n hle hmax hretried
  rcases Nat.lt_trichotomy n k with hlt | rfl | hgt
  · exact h.admitted n hlt hle
  · exact hadmitted hle
  · obtain ⟨err',herr',hretryable⟩ := hretried k hgt
    rw [herr,Option.some.injEq] at herr'
    have := hend (herr' ▸ hretryable)
    omega

theorem loop_ends {room k : ℕ} {attempt attemptsUsed : Int64} {lastErr : Option GoError}
    (hmax : (budget cfg).maxAttempts.toInt = cfg.maxRetries.toInt+1)
    (hroom : ((k+room : ℕ) : Int) = (budget cfg).maxAttempts.toInt) (hleft : 0 < room)
    (hattempt : attempt.toInt = k+1) (hlevel : Level cfg env k tr) (hcounts : Counts cfg env k cb) :
    ∃ ended tr', run env (retryLoop cfg message room attempt cb lastErr attemptsUsed) tr =
      (.ok ended,tr') ∧ Ending cfg env tr' ended ∧ tr'.filterMap recorded = [] := by
  induction room generalizing k attempt attemptsUsed cb lastErr tr with
  | zero => omega
  | succ room ih =>
    have hpos : 0 < (budget cfg).maxAttempts := by
      rw [Int64.lt_iff_toInt_lt]
      have hzero : (0 : Int64).toInt = 0 := rfl
      omega
    have hlimit : (k : Int) ≤ cfg.maxRetries.toInt := by omega
    obtain ⟨cb',hcan,hadmitted,hfailed⟩ | ⟨hcan,hreached,hheld⟩ := hcounts.admission
    · rw [← hlevel.read] at hcan
      have hexec := run_execute_admitted cfg message hcan
      cases herr : withTimeout (env.outcome (tr.countP isHandled)) with
      | none =>
        rw [herr] at hexec
        exact ⟨_,_,run_retryLoop_ok hexec,.processed (not_allFailed_attempted herr),
          hlevel.unwritten⟩
      | some err =>
        rw [herr] at hexec
        have hk : withTimeout (env.outcome k) = some err := hlevel.handled ▸ herr
        obtain ⟨hretryable,hlt,delay,hloop⟩ | ⟨hstop,hloop⟩ := run_retryLoop_failed room attempt
          attemptsUsed lastErr hexec hpos
        · have hmore : attempt.toInt < (budget cfg).maxAttempts.toInt := Int64.lt_iff_toInt_lt.mp hlt
          rw [hloop]
          exact ih (k := k+1) (by omega) (by omega) (toInt_next hlt hattempt)
            (hlevel.next delay hk hretryable hadmitted _) (hlevel.read ▸ hfailed)
        · have hcount := countP_handled_attempted env cfg message tr
          have hend : Retry.classify (some err) = .retryable → (k : Int) = cfg.maxRetries.toInt := by
            intro hretryable
            have hlast : ¬ attempt < (budget cfg).maxAttempts := fun hlt => hstop ⟨hretryable,hlt⟩
            rw [Int64.lt_iff_toInt_lt] at hlast
            omega
          refine ⟨_,_,hloop,.reported ?_ ?_ ?_ (hlevel.admitted_of_end hk hadmitted hend),
            hlevel.unwritten⟩
          · change _ = ((⟨.now,_⟩ :: attempted env cfg message tr : Trace).countP isHandled : Int)
            rw [countP_handled_now,hcount,hlevel.handled,hattempt]
            rfl
          · exact herr
          · intro hretryable
            have := hend hretryable
            omega
    · rw [← hlevel.read] at hcan
      have hnot : ¬ Admitted cfg env := fun h => hheld (h k hreached hlimit hlevel.retried)
      obtain ⟨_,hlt,delay,hloop⟩ | ⟨_,hloop⟩ := run_retryLoop_failed room attempt attemptsUsed
        lastErr (run_execute_held cfg message hcan) hpos
      · rw [hloop]
        refine loop_heldBack (k := k+1) hpos (toInt_next hlt hattempt) ?_ ?_ hlevel.unwritten hnot
        · rw [hattempt]
          push_cast
          rfl
        · simp [isHandled,hlevel.handled]
      · refine ⟨_,_,hloop,.heldBack ?_ hnot,hlevel.unwritten⟩
        rw [countP_handled_now,hlevel.handled]
        omega

end Loop

section Routing

variable {cfg : Config} {env : Environment} {consumerTopic : String} {message : Message} {tr tr' : Trace}

def anything : Spec Ans := ⟨fun _ _ => True,fun _ _ => True⟩

-- what routing adds to the trace: one record of the attempts and the reason, and no handler call
structure Routed (tr : Trace) (lastErr : Option GoError) (attemptsUsed : Int64) (tr' : Trace) : Prop where
  calls : tr'.filter isHandled = tr.filter isHandled
  written : ∃ reason, tr'.filterMap recorded = (attemptsUsed,reason) :: tr.filterMap recorded ∧
    ∀ err, lastErr = some err → reason = err.message

theorem decide_attempt (class_ : Classification) (attempt maxAttempts : Int64)
    (budget : Retry.Budget) (policy : Retry.Policy) :
    (Retry.decide class_ attempt maxAttempts budget policy).attempt = attempt := by
  cases class_ <;> simp only [Retry.decide] <;> split_ifs <;> rfl

theorem meets_route (quarantineSink : Bool) (lastErr : Option GoError) (attemptsUsed : Int64) :
    Prog.Meets anything (fun tr' _ => Routed tr lastErr attemptsUsed tr') tr
      (route cfg consumerTopic message quarantineSink lastErr attemptsUsed) := by
  have hquarantined : ∀ err, lastErr = some err → lastErr.elim "" GoError.message = err.message := by
    rintro err rfl
    rfl
  have hdead : ∀ err, lastErr = some err →
      (lastErr.getD (.text "unknown failure")).message = err.message := by
    rintro err rfl
    rfl
  simp only [route,sendToDLQ,now,Prog.meets_ite,Prog.meets_bind,Prog.meets_perform,Prog.meets_attempt]
  refine ⟨fun _ => ⟨trivial,fun t _ => ⟨trivial,?_⟩⟩,fun _ => ?_⟩
  · have hattempt := congrArg (fun n => (n,lastErr.elim "" GoError.message) :: tr.filterMap recorded)
      (decide_attempt (Retry.classify lastErr) attemptsUsed (budget cfg).maxAttempts (budget cfg)
        ⟨true,quarantineSink⟩)
    rintro (e | ⟨⟩) _
    · exact ⟨rfl,_,hattempt,hquarantined⟩
    · exact ⟨rfl,_,hattempt,hquarantined⟩
  · refine ⟨trivial,fun stack _ => ⟨trivial,fun failedAt _ => ⟨trivial,?_⟩⟩⟩
    rintro (e | value) _
    · exact ⟨rfl,_,rfl,hdead⟩
    · simp only [Prog.meets_bind,Prog.meets_perform]
      refine ⟨trivial,fun timestamp _ => ⟨trivial,?_⟩⟩
      rintro (e | ⟨⟩) _
      · exact ⟨rfl,_,rfl,hdead⟩
      · exact ⟨rfl,_,rfl,hdead⟩

theorem countP_of_calls (h : tr'.filter isHandled = tr.filter isHandled) :
    tr'.countP isHandled = tr.countP isHandled := by
  rw [List.countP_eq_length_filter,List.countP_eq_length_filter,h]

theorem lastError_of_calls (h : tr'.filter isHandled = tr.filter isHandled) :
    lastError tr' = lastError tr := by
  rw [lastError,lastError,← List.head?_filter,← List.head?_filter,h]

theorem forall_call_iff {P : Event Ans → Prop} (h : tr'.filter isHandled = tr.filter isHandled) :
    (∀ ev ∈ tr', isHandled ev = true → P ev) ↔ ∀ ev ∈ tr, isHandled ev = true → P ev := by
  have hfilter : ∀ l : Trace, (∀ ev ∈ l, isHandled ev = true → P ev) ↔
      ∀ ev ∈ l.filter isHandled, P ev := fun l => by simp [List.mem_filter]
  rw [hfilter,hfilter,h]

theorem classify_last {err : GoError} (hlast : lastError tr = some err) (h : OnlyRetryable tr) :
    Retry.classify (some err) = .retryable := by
  obtain ⟨ev,hfind,hfailure⟩ := Option.bind_eq_some_iff.mp hlast
  have hretry := h ev (List.mem_of_find?_eq_some hfind) (List.find?_some hfind)
  rwa [hfailure] at hretry

-- the report after the routing of an ended loop
theorem Ending.reports_iff {lastErr : Option GoError} {attemptsUsed : Int64}
    (h : Ending cfg env tr (.gaveUp lastErr attemptsUsed)) (hunwritten : tr.filterMap recorded = [])
    (hrouted : Routed tr lastErr attemptsUsed tr') : Reports cfg tr' ↔ Admitted cfg env := by
  obtain ⟨reason,hwritten,hreason⟩ := hrouted.written
  rw [hunwritten] at hwritten
  have hcount := countP_of_calls hrouted.calls
  have hsame := lastError_of_calls hrouted.calls
  cases h with
  | reported hused hlast hlimit hadmitted =>
    refine iff_of_true ⟨⟨attemptsUsed,_,?_,?_,hsame.trans hlast⟩,fun honly => ?_⟩ hadmitted
    · rw [hwritten,hreason _ rfl]
    · rw [hcount,hused]
    · have honly' : OnlyRetryable tr := (forall_call_iff hrouted.calls).mp honly
      rw [hcount,← hused]
      exact hlimit (classify_last hlast honly')
  | heldBack hused hheld =>
    refine iff_of_false (fun hreports => ?_) hheld
    obtain ⟨attempts,err,hone,hattempts,_⟩ := hreports.written
    rw [hwritten,List.cons.injEq,Prod.mk.injEq] at hone
    rw [hone.1.1] at hused
    omega

end Routing

section Consumer

variable {c : Consumer} {message : Message} {env : Environment} {tr : Trace}

theorem normalize_pos (cfg : Config) : 0 < cfg.normalize.circuitBreakerFailures := by
  simp only [Config.normalize]
  split_ifs with hle
  · decide
  · omega

theorem maxAttempts_toInt {cfg : Config} (h : 0 < (budget cfg).maxAttempts.toInt)
    (hretries : 0 ≤ cfg.maxRetries.toInt) :
    (budget cfg).maxAttempts.toInt = cfg.maxRetries.toInt+1 := by
  have hlt := cfg.maxRetries.toInt_lt
  have hone : (1 : Int64).toInt = 1 := rfl
  simp only [budget] at h ⊢
  rw [Int64.toInt_add,hone] at h ⊢
  rcases Int.lt_or_le (cfg.maxRetries.toInt+1) (2^63) with hfits | hwraps
  · rw [Int.bmod_eq_of_le (by omega) (by omega)]
  · have hmax : cfg.maxRetries.toInt+1 = 2^63 := by omega
    rw [hmax] at h
    exact absurd h (by decide)

theorem normalize_maxRetries_pos (cfg : Config) : 0 < cfg.normalize.maxRetries.toInt := by
  simp only [Config.normalize]
  split_ifs with hle
  · decide
  · rw [Int64.le_iff_toInt_le] at hle
    have hzero : (0 : Int64).toInt = 0 := rfl
    omega

def looped (c : Consumer) (message : Message) (env : Environment) : Except GoError Ended × Trace :=
  run env (retryLoop c.config.normalize message (budget c.config.normalize).maxAttempts.toInt.toNat 1
    (newCircuitBreaker c.config.normalize.circuitBreakerFailures
      c.config.normalize.circuitBreakerReset) none 0) []

theorem deliver_gaveUp {lastErr : Option GoError} {attemptsUsed : Int64} (htopic : c.consumerTopic ≠ "")
    (hloop : looped c message env = (.ok (.gaveUp lastErr attemptsUsed),tr)) :
    Routed tr lastErr attemptsUsed (deliver c message env.oracle).2 := by
  simp only [looped,run] at hloop
  simp only [deliver,consumeWithRetry,if_neg htopic,Prog.eval_bind,hloop]
  exact Prog.post_of_meets env.oracle (fun _ _ => trivial) (meets_route _ _ _)

theorem deliver_processed (htopic : c.consumerTopic ≠ "")
    (hloop : looped c message env = (.ok .processed,tr)) : (deliver c message env.oracle).2 = tr := by
  simp only [looped,run] at hloop
  simp only [deliver,consumeWithRetry,if_neg htopic,Prog.eval_bind,hloop,Prog.eval_pure]

-- MaxRetries+1 wraps and the loop makes no attempt
theorem not_reports_of_wrapped (htopic : c.consumerTopic ≠ "")
    (hwraps : c.config.maxRetries = Int64.maxValue) :
    ¬ Reports c.config.normalize (deliver c message env.oracle).2 := by
  have hretries : c.config.normalize.maxRetries = Int64.maxValue := by
    simp only [Config.normalize,hwraps]
    decide
  have hroom : (budget c.config.normalize).maxAttempts.toInt.toNat = 0 := by
    simp only [budget,hretries]
    decide
  have hloop : looped c message env = (.ok (.gaveUp none 0),[]) := by
    rw [looped,hroom]
    rfl
  have hrouted := deliver_gaveUp htopic hloop
  intro hreports
  have honly : OnlyRetryable (deliver c message env.oracle).2 :=
    (forall_call_iff hrouted.calls).mpr fun ev hev => absurd hev List.not_mem_nil
  have hinvoked := hreports.invoked honly
  rw [countP_of_calls hrouted.calls,hretries] at hinvoked
  exact absurd hinvoked (by decide)

theorem reports_iff_admitted (c : Consumer) (message : Message) (env : Environment)
    (htopic : c.consumerTopic ≠ "") (hfailed : AllFailed (deliver c message env.oracle).2) :
    Reports c.config.normalize (deliver c message env.oracle).2 ↔
      c.config.maxRetries ≠ Int64.maxValue ∧ Admitted c.config.normalize env := by
  by_cases hwraps : c.config.maxRetries = Int64.maxValue
  · exact iff_of_false (not_reports_of_wrapped htopic hwraps) fun h => h.1 hwraps
  · rw [and_iff_right hwraps]
    have hpos := maxAttempts_pos hwraps
    have hretries := normalize_maxRetries_pos c.config
    have hmax := maxAttempts_toInt hpos (by omega)
    have hlevel : Level c.config.normalize env 0 [] :=
      ⟨rfl,rfl,rfl,fun i hi => absurd hi (Nat.not_lt_zero i),fun n hn => absurd hn (Nat.not_lt_zero n)⟩
    obtain ⟨ended,tr,hloop,hending,hunwritten⟩ : ∃ ended tr, looped c message env = (.ok ended,tr) ∧
        Ending c.config.normalize env tr ended ∧ tr.filterMap recorded = [] :=
      loop_ends hmax (by omega) (by omega) rfl hlevel (counts_new env (normalize_pos c.config))
    cases ended with
    | processed =>
      cases hending with
      | processed hnot => exact absurd (deliver_processed htopic hloop ▸ hfailed) hnot
    | canceled e => cases hending
    | gaveUp lastErr attemptsUsed => exact hending.reports_iff hunwritten (deliver_gaveUp htopic hloop)

def ticking : Environment := ⟨fun _ => failing,fun n => n,scripted failing (.ok ())⟩

def order : Message := ⟨"m-1","",[],∅,"",0⟩

instance (tr : Trace) : Decidable (AllFailed tr) := inferInstanceAs (Decidable (∀ ev ∈ tr, _ → _))

theorem every_attempt_reported :
    AllFailed (deliver onceRetried order ticking.oracle).2 ∧
    Reports onceRetried.config.normalize (deliver onceRetried order ticking.oracle).2 := by
  have hfailed : AllFailed (deliver onceRetried order ticking.oracle).2 := by decide +kernel
  refine ⟨hfailed,(reports_iff_admitted onceRetried order ticking (by decide) hfailed).mpr
    ⟨by decide,fun n hreached hlimit _ => ?_⟩⟩
  have hfive : onceRetried.config.normalize.circuitBreakerFailures = 5 := rfl
  have hone : onceRetried.config.normalize.maxRetries.toInt = 1 := rfl
  omega

-- the breaker trips at the first failure and is still open at the two retries
def sensitive : Consumer where
  config := ⟨2,1,1,1,1,30*second,""⟩
  consumerTopic := "orders"
  quarantineSink := false

theorem held_back_attempts_reported :
    AllFailed (deliver sensitive order ticking.oracle).2 ∧
    (deliver sensitive order ticking.oracle).2.countP isHandled = 1 ∧
    (deliver sensitive order ticking.oracle).2.filterMap recorded = [(3,"circuit breaker is open")] ∧
    ¬ Reports sensitive.config.normalize (deliver sensitive order ticking.oracle).2 := by
  have hcount : (deliver sensitive order ticking.oracle).2.countP isHandled = 1 := by decide +kernel
  have hrecorded : (deliver sensitive order ticking.oracle).2.filterMap recorded =
      [(3,"circuit breaker is open")] := by decide +kernel
  refine ⟨by decide +kernel,hcount,hrecorded,fun h => ?_⟩
  obtain ⟨attempts,err,hone,hattempts,_⟩ := h.written
  rw [hrecorded,List.cons.injEq,Prod.mk.injEq] at hone
  rw [hcount,← hone.1.1] at hattempts
  exact absurd hattempts (by decide)

end Consumer

end Nimburion.EventBus.RetryDLQ.Report
