import Nimburion.Resilience.HalfOpen

namespace Nimburion.Resilience
open Interaction GoTime

def CircuitBreaker.reset (cb : CircuitBreaker) : CircuitBreaker :=
  { cb with state := .closed, failures := 0, successes := 0 }

namespace Sequential

inductive Outcome where
  | returned (err : Option GoError)
  | panicked
  deriving DecidableEq, Repr

structure Call where
  startedAt : Time
  endedAt : Time
  outcome : Outcome
  deriving DecidableEq, Repr

inductive Step where
  | execute (call : Call)
  | reset
  deriving DecidableEq, Repr

inductive Entry where
  | skipped (err : GoError)
  | ran (endedAt : Time) (outcome : Outcome)
  | reset
  deriving DecidableEq, Repr

-- a panic of fn leaves Execute before either record; the breaker is then as it is while fn runs
def execute (cb : CircuitBreaker) (call : Call) : Entry × CircuitBreaker :=
  match cb.canExecute call.startedAt with
  | (false,cb) => (.skipped errCircuitBreakerOpen,cb)
  | (true,cb) => (.ran call.endedAt call.outcome,match call.outcome with
      | .returned (some _) => cb.recordFailure call.endedAt
      | .returned none => cb.recordSuccess
      | .panicked => cb)

def handler (call : Call) (err : Option GoError) (cb : CircuitBreaker) :
    (op : Execute.Op) → Execute.Ans op × CircuitBreaker
  | .canExecute =>
      let r := cb.canExecute call.startedAt
      (if r.1 then some r.2.state else none,r.2)
  | .fn => (err,cb)
  | .recordFailure => ((),cb.recordFailure call.endedAt)
  | .recordSuccess => ((),cb.recordSuccess)

theorem execute_eq_eval (cb : CircuitBreaker) (startedAt endedAt : Time) (err : Option GoError) :
    let call : Call := ⟨startedAt,endedAt,.returned err⟩
    Prog.eval (handler call err) Execute.execute cb =
      (match (execute cb call).1 with
        | .skipped e => .error e
        | _ => err.elim (.ok ()) .error,(execute cb call).2) := by
  intro call
  simp only [Execute.execute,Prog.eval_bind,Prog.eval_perform,handler,execute,call]
  rcases cb.canExecute startedAt with ⟨_ | _,admitted⟩
  · rfl
  · cases err <;> rfl

-- the latest entry first
abbrev History := List Entry

-- failures of executed calls since the last success, Reset or start
def streak : History → ℕ
  | .ran _ (.returned (some _)) :: h => streak h+1
  | .ran _ (.returned none) :: _ => 0
  | .reset :: _ => 0
  | _ :: h => streak h
  | [] => 0

def failedAt : Entry → Option Time
  | .ran endedAt (.returned (some _)) => some endedAt
  | _ => none

def lastFailure (h : History) : Option Time := h.findSome? failedAt

-- a call that ran after the circuit had tripped was admitted after an open period
def Tripped (maxFailures : Int) : History → Prop
  | .ran _ (.returned (some _)) :: h => maxFailures ≤ streak h+1 ∨ Tripped maxFailures h
  | .ran _ (.returned none) :: _ => False
  | .reset :: _ => False
  | _ :: h => Tripped maxFailures h
  | [] => False

@[simp] theorem lastFailure_failed (endedAt : Time) (err : GoError) (h : History) :
    lastFailure (.ran endedAt (.returned (some err)) :: h) = some endedAt := rfl

def Within (timeout : Duration) (h : History) (now : Time) : Prop :=
  ∃ t, lastFailure h = some t ∧ now-t ≤ timeout

structure Run where
  breaker : CircuitBreaker
  history : History
  deriving DecidableEq, Repr

def step (r : Run) : Step → Run
  | .execute call =>
      ⟨(execute r.breaker call).2,(execute r.breaker call).1 :: r.history⟩
  | .reset => ⟨r.breaker.reset,.reset :: r.history⟩

def run (maxFailures : Int) (timeout : Duration) (steps : List Step) : Run :=
  steps.foldl step ⟨newCircuitBreaker maxFailures timeout,[]⟩

def Step.times : Step → List Time
  | .execute call => [call.startedAt,call.endedAt]
  | .reset => []

def times (steps : List Step) : List Time := steps.flatMap Step.times

def NonDecreasing (steps : List Step) : Prop := (times steps).Pairwise (· ≤ ·)

section Invariant

variable {maxFailures : Int} {timeout : Duration} {r : Run} {past : List Time}

inductive Counted (maxFailures : Int) (timeout : Duration) (past : List Time) (r : Run) : Prop where
  | closed (hstate : r.breaker.state = .closed) (hfailures : r.breaker.failures = streak r.history)
      (hbelow : (streak r.history : Int) < maxFailures) (htripped : ¬ Tripped maxFailures r.history)
  | opened (hstate : r.breaker.state = .open_) (htripped : Tripped maxFailures r.history)
      (hlast : lastFailure r.history = some r.breaker.lastFailTime)
  | halfOpen (hstate : r.breaker.state = .halfOpen) (htripped : Tripped maxFailures r.history)
      (hlast : lastFailure r.history = some r.breaker.lastFailTime)
      (helapsed : ∃ s ∈ past, timeout < s-r.breaker.lastFailTime)

structure Tracks (maxFailures : Int) (timeout : Duration) (past : List Time) (r : Run) : Prop where
  counted : Counted maxFailures timeout past r
  max : r.breaker.maxFailures = maxFailures
  reset : r.breaker.timeout = timeout

theorem tracks_fresh (hmax : 1 ≤ maxFailures) (timeout : Duration) :
    Tracks maxFailures timeout [] ⟨newCircuitBreaker maxFailures timeout,[]⟩ :=
  ⟨.closed rfl rfl (show 0 < maxFailures from hmax) id,rfl,rfl⟩

theorem within_iff {now last : Time} (hlast : lastFailure r.history = some last) :
    Within timeout r.history now ↔ now-last ≤ timeout := by
  simp [Within,hlast]

-- an admitted call runs closed or half-open; a skipped one changes nothing
theorem Tracks.admission (h : Tracks maxFailures timeout past r) {now : Time}
    (hnow : ∀ s ∈ past, s ≤ now) :
    (∃ cb, r.breaker.canExecute now = (true,cb) ∧ cb.state ≠ .open_ ∧
      Tracks maxFailures timeout (past ++ [now]) ⟨cb,r.history⟩ ∧
      ¬ (Tripped maxFailures r.history ∧ Within timeout r.history now)) ∨
    (r.breaker.canExecute now = (false,r.breaker) ∧ r.breaker.state = .open_ ∧
      Tripped maxFailures r.history ∧ Within timeout r.history now) := by
  cases h.counted with
  | closed hstate hfailures hbelow htripped =>
    refine .inl ⟨r.breaker,?_,?_,⟨.closed hstate hfailures hbelow htripped,h.max,h.reset⟩,?_⟩
    · simp [CircuitBreaker.canExecute,hstate]
    · simp [hstate]
    · exact fun hskip => htripped hskip.1
  | opened hstate htripped hlast =>
    rw [within_iff hlast]
    by_cases helapsed : timeout < now-r.breaker.lastFailTime
    · refine .inl ⟨{ r.breaker with state := .halfOpen, successes := 0 },?_,?_,
        ⟨.halfOpen rfl htripped hlast ⟨now,by simp,helapsed⟩,h.max,h.reset⟩,?_⟩
      · simp [CircuitBreaker.canExecute,hstate,h.reset,helapsed]
      · simp
      · exact fun hskip => Int.not_le.mpr helapsed hskip.2
    · refine .inr ⟨?_,hstate,htripped,Int.not_lt.mp helapsed⟩
      simp [CircuitBreaker.canExecute,hstate,h.reset,helapsed]
  | halfOpen hstate htripped hlast helapsed =>
    obtain ⟨s,hs,hlate⟩ := helapsed
    refine .inl ⟨r.breaker,?_,?_,⟨.halfOpen hstate htripped hlast ⟨s,by simp [hs],hlate⟩,h.max,
      h.reset⟩,?_⟩
    · simp [CircuitBreaker.canExecute,hstate]
    · simp [hstate]
    · rw [within_iff hlast]
      have hle := Int.sub_le_sub_right (hnow s hs) r.breaker.lastFailTime
      exact fun hskip => Int.not_le.mpr hlate (Int.le_trans hle hskip.2)

theorem Tracks.later (h : Tracks maxFailures timeout past r) (more : List Time) :
    Tracks maxFailures timeout (past ++ more) r := by
  refine ⟨?_,h.max,h.reset⟩
  cases h.counted with
  | closed hstate hfailures hbelow htripped => exact .closed hstate hfailures hbelow htripped
  | opened hstate htripped hlast => exact .opened hstate htripped hlast
  | halfOpen hstate htripped hlast helapsed =>
    obtain ⟨s,hs,hlate⟩ := helapsed
    exact .halfOpen hstate htripped hlast ⟨s,List.mem_append_left _ hs,hlate⟩

theorem Tracks.failure (h : Tracks maxFailures timeout past r) (hrunning : r.breaker.state ≠ .open_)
    (endedAt : Time) (err : GoError) :
    Tracks maxFailures timeout past
      ⟨r.breaker.recordFailure endedAt,.ran endedAt (.returned (some err)) :: r.history⟩ := by
  cases h.counted with
  | opened hstate => exact absurd hstate hrunning
  | halfOpen hstate htripped hlast helapsed =>
    refine ⟨.opened ?_ (.inr htripped) ?_,?_,?_⟩
    all_goals simp [CircuitBreaker.recordFailure,hstate,h.max,h.reset]
  | closed hstate hfailures hbelow htripped =>
    by_cases hlimit : maxFailures ≤ streak r.history+1
    · refine ⟨.opened ?_ (.inl hlimit) ?_,?_,?_⟩
      all_goals simp [CircuitBreaker.recordFailure,hstate,h.max,h.reset,
        hfailures,hlimit]
    · refine ⟨.closed ?_ ?_ ?_ ?_,?_,?_⟩
      · simp [CircuitBreaker.recordFailure,hstate,h.max,hfailures,hlimit]
      · simp [CircuitBreaker.recordFailure,hstate,hfailures,streak]
      · simpa [streak] using hlimit
      · exact fun htrips => htrips.elim hlimit htripped
      all_goals simp [CircuitBreaker.recordFailure,hstate,h.max,h.reset]

theorem Tracks.success (h : Tracks maxFailures timeout past r) (hmax : 1 ≤ maxFailures)
    (hrunning : r.breaker.state ≠ .open_) (endedAt : Time) :
    Tracks maxFailures timeout past
      ⟨r.breaker.recordSuccess,.ran endedAt (.returned none) :: r.history⟩ := by
  have hzero : ((0 : ℕ) : Int) < maxFailures := hmax
  cases hstate : r.breaker.state with
  | open_ => exact absurd hstate hrunning
  | closed =>
    refine ⟨.closed ?_ ?_ hzero id,?_,?_⟩
    all_goals simp [CircuitBreaker.recordSuccess,hstate,streak,h.max,h.reset]
  | halfOpen =>
    refine ⟨.closed ?_ ?_ hzero id,?_,?_⟩
    all_goals simp [CircuitBreaker.recordSuccess,hstate,streak,h.max,h.reset]

theorem Tracks.unseen (h : Tracks maxFailures timeout past r) {entry : Entry}
    (hentry : (∃ err, entry = .skipped err) ∨ ∃ endedAt, entry = .ran endedAt .panicked) :
    Tracks maxFailures timeout past ⟨r.breaker,entry :: r.history⟩ := by
  refine ⟨?_,h.max,h.reset⟩
  obtain ⟨err,rfl⟩ | ⟨endedAt,rfl⟩ := hentry
  all_goals
    cases h.counted with
    | closed hstate hfailures hbelow htripped => exact .closed hstate hfailures hbelow htripped
    | opened hstate htripped hlast => exact .opened hstate htripped hlast
    | halfOpen hstate htripped hlast helapsed => exact .halfOpen hstate htripped hlast helapsed

theorem Tracks.step (h : Tracks maxFailures timeout past r) (hmax : 1 ≤ maxFailures) (s : Step)
    (hlater : ∀ call, s = .execute call → ∀ t ∈ past, t ≤ call.startedAt) :
    Tracks maxFailures timeout (past ++ s.times) (step r s) := by
  cases s with
  | reset =>
    have hzero : ((0 : ℕ) : Int) < maxFailures := hmax
    exact ⟨.closed rfl rfl hzero id,h.max,h.reset⟩
  | execute call =>
    have hsplit : past ++ (Step.execute call).times = (past ++ [call.startedAt]) ++ [call.endedAt] := by
      simp [Step.times]
    rw [hsplit]
    obtain ⟨cb,hcan,hrunning,htracks,_⟩ | ⟨hcan,_⟩ := h.admission (hlater call rfl)
    · have hended := htracks.later [call.endedAt]
      cases hout : call.outcome with
      | panicked =>
        have hunseen := hended.unseen (.inr ⟨call.endedAt,rfl⟩)
        simpa only [Sequential.step,execute,hcan,hout] using hunseen
      | returned err =>
        cases err with
        | none =>
          have hsuccess := hended.success hmax hrunning call.endedAt
          simpa only [Sequential.step,execute,hcan,hout] using hsuccess
        | some e =>
          have hfailure := hended.failure hrunning call.endedAt e
          simpa only [Sequential.step,execute,hcan,hout] using hfailure
    · have hunseen := (h.later ([call.startedAt] ++ [call.endedAt])).unseen
        (.inl ⟨errCircuitBreakerOpen,rfl⟩)
      simpa only [Sequential.step,execute,hcan,List.append_assoc] using hunseen

theorem later_of_nonDecreasing {steps : List Step} {call : Call}
    (h : NonDecreasing (steps ++ [Step.execute call])) : ∀ t ∈ times steps, t ≤ call.startedAt := by
  intro t ht
  rw [NonDecreasing,times,List.flatMap_append,List.pairwise_append] at h
  exact h.2.2 t ht call.startedAt (by simp [Step.times])

theorem tracks_run (hmax : 1 ≤ maxFailures) (timeout : Duration) {steps : List Step}
    (h : NonDecreasing steps) :
    Tracks maxFailures timeout (times steps) (run maxFailures timeout steps) := by
  induction steps using List.reverseRecOn with
  | nil => exact tracks_fresh hmax timeout
  | append_singleton steps s ih =>
    have hbefore : NonDecreasing steps := by
      rw [NonDecreasing,times,List.flatMap_append,List.pairwise_append] at h
      exact h.1
    have hstep := (ih hbefore).step hmax s (fun call hs => later_of_nonDecreasing (hs ▸ h))
    rw [run,List.foldl_append,times,List.flatMap_append]
    simpa [times,run] using hstep

end Invariant

theorem skipped_iff_tripped (maxFailures : Int) (hmax : 1 ≤ maxFailures) (timeout : Duration)
    (steps : List Step) (hsteps : NonDecreasing steps) :
    let r := run maxFailures timeout steps
    (∀ call, NonDecreasing (steps ++ [.execute call]) →
      ((execute r.breaker call).1 = .skipped errCircuitBreakerOpen ↔
        Tripped maxFailures r.history ∧ Within timeout r.history call.startedAt) ∧
      ((execute r.breaker call).1 ≠ .skipped errCircuitBreakerOpen →
        (execute r.breaker call).1 = .ran call.endedAt call.outcome)) ∧
    (r.breaker.state = .closed → r.breaker.failures < maxFailures) := by
  intro r
  have htracks := tracks_run hmax timeout hsteps
  refine ⟨fun call hcall => ?_,fun hclosed => ?_⟩
  · obtain ⟨cb,hcan,_,_,hadmitted⟩ | ⟨hcan,_,htripped,hwithin⟩ :=
      htracks.admission (later_of_nonDecreasing hcall)
    · have hran : (execute r.breaker call).1 = .ran call.endedAt call.outcome := by
        simp [execute,r,hcan]
      rw [hran]
      exact ⟨iff_of_false nofun hadmitted,fun _ => rfl⟩
    · have hskipped : (execute r.breaker call).1 = .skipped errCircuitBreakerOpen := by
        simp [execute,r,hcan]
      rw [hskipped]
      exact ⟨iff_of_true rfl ⟨htripped,hwithin⟩,fun hne => absurd rfl hne⟩
  · cases htracks.counted with
    | closed hstate hfailures hbelow htripped => exact hfailures ▸ hbelow
    | opened hstate => rw [hstate] at hclosed; cases hclosed
    | halfOpen hstate => rw [hstate] at hclosed; cases hclosed

-- two failures trip the circuit, the probe after the timeout fails, and the next call is skipped
def flapping : List Step :=
  [.execute ⟨0,1,.returned (some (.text "boom"))⟩,.execute ⟨2,3,.returned (some (.text "boom"))⟩,
    .execute ⟨20,21,.returned (some (.text "boom"))⟩]

theorem failed_probe_skips_next :
    NonDecreasing (flapping ++ [.execute ⟨25,26,.returned none⟩]) ∧
    (execute (run 2 10 flapping).breaker ⟨25,26,.returned none⟩).1 = .skipped errCircuitBreakerOpen := by
  have htimes : NonDecreasing (flapping ++ [Step.execute ⟨25,26,.returned none⟩]) := by
    unfold NonDecreasing
    decide
  have hsteps : NonDecreasing flapping := by
    unfold NonDecreasing
    decide
  have hhistory : (run 2 10 flapping).history = [.ran 21 (.returned (some (.text "boom"))),
      .ran 3 (.returned (some (.text "boom"))),.ran 1 (.returned (some (.text "boom")))] := by
    decide
  refine ⟨htimes,(((skipped_iff_tripped 2 (by decide) 10 flapping hsteps).1 _ htimes).1).mpr ?_⟩
  rw [hhistory]
  exact ⟨.inl (by decide),21,rfl,by decide⟩

end Sequential

end Nimburion.Resilience
