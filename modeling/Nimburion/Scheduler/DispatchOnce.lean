import Nimburion.Scheduler.Runtime

namespace Nimburion.Scheduler
open Interaction GoTime LeaseTable

abbrev Trace := List (Interaction.Event Ans)

abbrev Instances := Config Ans GoError Cluster Instance Unit

abbrev Running := Thread Ans GoError Instance Unit

abbrev Step := Action Instance Outcome Event

-- the lock for the run was granted and its job is still to be enqueued
def holding (scheduled : Time) : Trace → Bool
  | [] => false
  | ⟨.acquire t _ _,.ok (some _)⟩ :: _ => decide (t = scheduled)
  | ⟨.enqueue ..,_⟩ :: _ => false
  | _ :: tr => holding scheduled tr

def Idle (tr : Trace) : Prop := ∀ t, holding t tr = false

def order : Spec Ans where
  pre tr op := match op with
    | .acquire .. => Idle tr
    | .enqueue scheduled _ => holding scheduled tr = true
    | _ => True
  ans _ _ := True

def pending (scheduled : Time) (t : Running) : Bool := t.alive && holding scheduled t.trace

def forRun (scheduled : Time) (entry : Time × Jobs.Job) : Bool := decide (entry.1 = scheduled)

def DispatchedOnce (c : Instances) : Prop := ∀ t, c.shared.queue.countP (forRun t) ≤ 1

def Outcome.reaches : Outcome → Bool
  | .lostRequest _ => false
  | _ => true

-- a run's jobs in the queue and instances about to enqueue one
def engaged (c : Instances) (scheduled : Time) : ℕ :=
  c.shared.queue.countP (forRun scheduled)+c.threads.countP (pending scheduled)

-- an instance that asks for the lock of a run with a job in the queue, or with an instance about
-- to enqueue one, finds its key held
def keyHeld (c : Instances) (a : Step) : Bool :=
  match c.next a with
  | some (_,.acquire scheduled key _,o) => !o.reaches ||
      decide (engaged c scheduled = 0) ||
      (live c.shared.alive c.shared.locks key).isSome
  | _ => true

def KeyHeld (c : Instances) (a : Step) : Prop := keyHeld c a = true

instance (c : Instances) (a : Step) : Decidable (KeyHeld c a) :=
  inferInstanceAs (Decidable (keyHeld c a = true))

section Order

variable {lib : Library} {task : Task} {cfg : RuntimeConfig}

theorem meets_dispatchTask (scheduled runAt : Time) {tr : Trace} (hidle : Idle tr) :
    Prog.Meets order (fun tr' _ => Idle tr') tr (dispatchTask cfg task scheduled runAt) := by
  simp only [dispatchTask,Prog.meets_bind,Prog.meets_perform]
  refine ⟨hidle,?_⟩
  rintro (e | _ | lease) _
  · exact hidle
  · exact hidle
  · simp only [Prog.meets_bind,Prog.meets_perform]
    refine ⟨trivial,fun id _ => ⟨trivial,fun createdAt _ => ⟨?_,fun enqueued _ => ⟨trivial,
      fun renewed _ => ⟨trivial,fun released _ => ?_⟩⟩⟩⟩⟩
    · exact decide_eq_true rfl
    · cases errorsJoin [enqueued,renewed,released] with
      | none => exact fun t => rfl
      | some e => exact fun t => rfl

theorem meets_runTaskLoop (rounds : ℕ) {tr : Trace} (hidle : Idle tr) :
    Prog.Meets order (fun tr' _ => Idle tr') tr (runTaskLoop lib task cfg rounds) := by
  induction rounds generalizing tr with
  | zero => exact hidle
  | succ rounds ih =>
    simp only [runTaskLoop,Prog.meets_bind,Prog.meets_perform]
    refine ⟨trivial,fun now _ => ?_⟩
    split
    · exact hidle
    · exact hidle
    · simp only [Prog.meets_bind,Prog.meets_perform]
      refine ⟨trivial,fun fired _ => ?_⟩
      cases fired with
      | false => exact hidle
      | true =>
        simp only [if_true,Prog.meets_bind,Prog.meets_perform,Prog.meets_ite,Prog.meets_attempt]
        refine ⟨trivial,fun actualNow _ => ⟨fun _ => ih hidle,fun _ => ?_⟩⟩
        refine Prog.meets_mono ?_ (meets_dispatchTask _ _ hidle)
        exact fun tr' r hidle' => ih hidle'

end Order

theorem holding_cons (t : Time) {op : Op} (ans : Ans op) (tr : Trace)
    (hacquire : ∀ scheduled key ttl, op ≠ .acquire scheduled key ttl)
    (henqueue : ∀ scheduled job, op ≠ .enqueue scheduled job) :
    holding t (⟨op,ans⟩ :: tr) = holding t tr := by
  cases op with
  | acquire scheduled key ttl => exact absurd rfl (hacquire scheduled key ttl)
  | enqueue scheduled job => exact absurd rfl (henqueue scheduled job)
  | now => rfl
  | sleep nextRun => rfl
  | randomSchedulerID => rfl
  | stopRenewal lease => rfl
  | release lease => rfl

section Steps

variable {lib : Library} {task : Task} {c : Instances} {i : ℕ} {t : Running} {s' : Cluster}

structure EngagedOnce (c : Instances) : Prop where
  meets : Machine.ThreadsMeet (fun _ : Instance => order) (fun _ tr _ => Idle tr) c
  once : ∀ scheduled, engaged c scheduled ≤ 1

theorem engaged_set {t' : Running} (ht : c.threads[i]? = some t) (scheduled : Time)
    (h : s'.queue.countP (forRun scheduled)+(pending scheduled t').toNat ≤
      c.shared.queue.countP (forRun scheduled)+(pending scheduled t).toNat) :
    engaged ⟨s',c.threads.set i t'⟩ scheduled ≤ engaged c scheduled := by
  have hcount := Machine.countP_set_toNat (pending scheduled) t' ht
  simp only [engaged]
  omega

theorem engaged_set_new {t' : Running} (ht : c.threads[i]? = some t) {scheduled : Time}
    (hqueue : s'.queue = c.shared.queue) (hzero : engaged c scheduled = 0) :
    engaged ⟨s',c.threads.set i t'⟩ scheduled ≤ 1 := by
  have hcount := Machine.countP_set_toNat (pending scheduled) t' ht
  have hbit := (pending scheduled t').toNat_le
  simp only [engaged,hqueue] at hzero ⊢
  omega

theorem exec_queue {op : Op} {o : Outcome} {ans : Ans op} {s : Cluster}
    (hx : exec s op o = some (ans,s')) (henqueue : ∀ scheduled job, op ≠ .enqueue scheduled job) :
    s'.queue = s.queue := by
  cases op with
  | now =>
    cases hx
    rfl
  | sleep nextRun =>
    simp only [exec] at hx
    cases o <;> (try split_ifs at hx) <;> cases hx <;> rfl
  | acquire scheduled key ttl => cases o <;> cases hx <;> rfl
  | randomSchedulerID =>
    cases o <;> cases hx
    rfl
  | enqueue scheduled job => exact absurd rfl (henqueue scheduled job)
  | stopRenewal lease => cases o <;> cases hx <;> rfl
  | release lease => cases o <;> cases hx <;> rfl

theorem engaged_other {op : Op} {k : Ans op → M Unit} {o : Outcome} {ans : Ans op}
    (h : EngagedOnce c) (ht : c.threads[i]? = some t) (hx : exec c.shared op o = some (ans,s'))
    (hacquire : ∀ scheduled key ttl, op ≠ .acquire scheduled key ttl)
    (henqueue : ∀ scheduled job, op ≠ .enqueue scheduled job) (scheduled : Time) :
    engaged ⟨s',c.threads.set i { t with rest := k ans, trace := ⟨op,ans⟩ :: t.trace }⟩ scheduled ≤ 1 := by
  refine Nat.le_trans (engaged_set ht scheduled ?_) (h.once scheduled)
  rw [exec_queue hx henqueue]
  simp only [pending,holding_cons scheduled ans t.trace hacquire henqueue]
  exact Nat.le_refl _

theorem free_of_granted {s : Cluster} {key : String} {ttl : Duration} {lease : RunLease}
    (h : (s.acquire key ttl).1 = some lease) : live s.alive s.locks key = none := by
  simp only [Cluster.acquire,claim_fst] at h
  split_ifs at h with hnone
  exact Option.isNone_iff_eq_none.mp hnone

theorem idle_run_of_granted {run : Time} {key : String} {ttl : Duration}
    {k : Ans (.acquire run key ttl) → M Unit} {o : Outcome} {lease : RunLease}
    (hkey : KeyHeld c (.exec i o)) (ht : c.threads[i]? = some t) (halive : t.alive = true)
    (hrest : t.rest = .call (.acquire run key ttl) k)
    (hx : exec c.shared (.acquire run key ttl) o = some (.ok (some lease),s')) :
    engaged c run = 0 := by
  simp only [KeyHeld,keyHeld,Config.next_exec ht halive hrest] at hkey
  cases o with
  | done =>
    simp only [exec,Option.some.injEq,Prod.mk.injEq,Except.ok.injEq] at hx
    rw [free_of_granted hx.1] at hkey
    simpa [Outcome.reaches] using hkey
  | lostRequest e => cases hx
  | lostReply e => cases hx
  | cancelled => cases hx
  | id x => cases hx

theorem engaged_acquire {run : Time} {key : String} {ttl : Duration}
    {k : Ans (.acquire run key ttl) → M Unit} {o : Outcome} {ans : Ans (.acquire run key ttl)}
    (h : EngagedOnce c) (hkey : KeyHeld c (.exec i o)) (ht : c.threads[i]? = some t)
    (halive : t.alive = true) (hrest : t.rest = .call (.acquire run key ttl) k)
    (hx : exec c.shared (.acquire run key ttl) o = some (ans,s')) (scheduled : Time) :
    engaged ⟨s',c.threads.set i { t with
      rest := k ans, trace := ⟨.acquire run key ttl,ans⟩ :: t.trace }⟩ scheduled ≤ 1 := by
  have hqueue := exec_queue hx (by simp)
  have hmeets := h.meets t (List.mem_of_getElem? ht)
  rw [hrest,Prog.meets_call] at hmeets
  have hidle : Idle t.trace := hmeets.1
  by_cases hgranted : (∃ lease, ans = .ok (some lease)) ∧ run = scheduled
  · obtain ⟨⟨lease,rfl⟩,rfl⟩ := hgranted
    exact engaged_set_new ht hqueue (idle_run_of_granted hkey ht halive hrest hx)
  · refine Nat.le_trans (engaged_set ht scheduled ?_) (h.once scheduled)
    have hkept : holding scheduled (⟨.acquire run key ttl,ans⟩ :: t.trace) = false := by
      rcases ans with e | _ | lease
      · exact hidle scheduled
      · exact hidle scheduled
      · exact decide_eq_false fun heq => hgranted ⟨⟨lease,rfl⟩,heq⟩
    simp [hqueue,pending,hkept]

theorem engaged_enqueue {run : Time} {job : Jobs.Job}
    {k : Ans (.enqueue run job) → M Unit} {o : Outcome} {ans : Ans (.enqueue run job)}
    (h : EngagedOnce c) (ht : c.threads[i]? = some t)
    (halive : t.alive = true) (hrest : t.rest = .call (.enqueue run job) k)
    (hx : exec c.shared (.enqueue run job) o = some (ans,s')) (scheduled : Time) :
    engaged ⟨s',c.threads.set i { t with
      rest := k ans, trace := ⟨.enqueue run job,ans⟩ :: t.trace }⟩ scheduled ≤ 1 := by
  have hmeets := h.meets t (List.mem_of_getElem? ht)
  rw [hrest,Prog.meets_call] at hmeets
  have hholding : holding run t.trace = true := hmeets.1
  refine Nat.le_trans (engaged_set ht scheduled ?_) (h.once scheduled)
  have hqueue : s'.queue = c.shared.queue ∨ s'.queue = (run,job) :: c.shared.queue := by
    cases o <;> cases hx
    · exact .inr rfl
    · exact .inl rfl
    · exact .inr rfl
  have hdone : pending scheduled { t with
      rest := k ans, trace := ⟨.enqueue run job,ans⟩ :: t.trace } = false := by
    simp [pending,holding]
  rw [hdone]
  rcases hqueue with hsame | hnew
  · rw [hsame]
    simp
  · rw [hnew,List.countP_cons]
    by_cases heq : run = scheduled
    · subst heq
      simp [forRun,pending,halive,hholding]
    · simp [forRun,heq]

theorem engaged_exec {op : Op} {k : Ans op → M Unit} {o : Outcome} {ans : Ans op}
    (h : EngagedOnce c) (hkey : KeyHeld c (.exec i o)) (ht : c.threads[i]? = some t)
    (halive : t.alive = true) (hrest : t.rest = .call op k)
    (hx : exec c.shared op o = some (ans,s')) (scheduled : Time) :
    engaged ⟨s',c.threads.set i { t with rest := k ans, trace := ⟨op,ans⟩ :: t.trace }⟩ scheduled ≤ 1 := by
  cases op with
  | acquire run key ttl => exact engaged_acquire h hkey ht halive hrest hx scheduled
  | enqueue run job => exact engaged_enqueue h ht halive hrest hx scheduled
  | now => exact engaged_other h ht hx (by simp) (by simp) scheduled
  | sleep nextRun => exact engaged_other h ht hx (by simp) (by simp) scheduled
  | randomSchedulerID => exact engaged_other h ht hx (by simp) (by simp) scheduled
  | stopRenewal lease => exact engaged_other h ht hx (by simp) (by simp) scheduled
  | release lease => exact engaged_other h ht hx (by simp) (by simp) scheduled

theorem engagedOnce_step {a : Step} {c' : Instances} (h : EngagedOnce c) (hkey : KeyHeld c a)
    (hs : (instances lib task).step c a = some c') : EngagedOnce c' := by
  refine ⟨h.meets.step (m := instances lib task)
    (fun inst => meets_runTaskLoop inst.rounds fun _ => rfl) (fun _ _ _ _ _ _ _ => trivial) hs,?_⟩
  intro scheduled
  obtain ⟨call,rfl,rfl⟩ | ⟨i,x,t,op,k,ans,s',rfl,ht,halive,hrest,hx,rfl⟩ | ⟨i,t,rfl,ht,rfl⟩ |
    ⟨e,rfl,rfl⟩ := (instances lib task).step_cases hs
  · simpa [engaged,pending,holding] using h.once scheduled
  · exact engaged_exec h hkey ht halive hrest hx scheduled
  · refine Nat.le_trans (engaged_set ht scheduled ?_) (h.once scheduled)
    simp [pending]
  · cases e with
    | advance n => exact h.once scheduled
    | renew lease ttl => exact h.once scheduled

theorem dispatchedOnce_of_engagedOnce (h : EngagedOnce c) : DispatchedOnce c :=
  fun scheduled => Nat.le_trans (Nat.le_add_right _ _) (h.once scheduled)

end Steps

theorem runs_dispatched_once (lib : Library) (task : Task) (clock : Time) (locks : Table String ℕ)
    (nextToken : ℕ) (acts : List Step)
    (h : (instances lib task).Along KeyHeld acts ⟨⟨clock,locks,nextToken,[]⟩,[]⟩) :
    (instances lib task).Along (fun c a => ∀ c', (instances lib task).step c a = some c' →
      DispatchedOnce c') acts ⟨⟨clock,locks,nextToken,[]⟩,[]⟩ := by
  refine (instances lib task).along_imp (I := EngagedOnce) ?_ ?_ ?_ h
  · exact fun c a hengaged hkey c' hs => dispatchedOnce_of_engagedOnce (engagedOnce_step hengaged hkey hs)
  · exact fun c a c' hengaged hkey hs => engagedOnce_step hengaged hkey hs
  · exact ⟨fun t ht => by simp at ht,fun _ => Nat.zero_le _⟩

def everyMinute (policy : MisfirePolicy) : Task :=
  ⟨"billing-close-day","* * * * *","billing","billing.close_day",[],∅,"","","",0,policy⟩

def oneRound : Instance := ⟨⟨0⟩,1⟩

def emptyCluster : Cluster := ⟨0,fun _ => none,0,[]⟩

-- both instances have planned the run of the first minute and wake up in time for it
def planned : List Step :=
  [.start oneRound,.start oneRound,.exec 0 .done,.exec 1 .done,.env (.advance 60000000000),
    .exec 0 .done,.exec 0 .done]

def dispatch (i : ℕ) : List Step :=
  [.exec i .done,.exec i (.id "sched-1"),.exec i .done,.exec i .done,.exec i .done,.exec i .done]

def overlapping : List Step :=
  planned ++ ([.exec 1 .done,.exec 1 .done,.exec 0 .done,.exec 1 .done] : List Step) ++
    (dispatch 0).drop 1

theorem runs_dispatched_once_overlapping :
    (instances utcOnly (everyMinute .skip)).Along KeyHeld overlapping ⟨emptyCluster,[]⟩ ∧
    (instances utcOnly (everyMinute .skip)).Along (fun c a => ∀ c',
      (instances utcOnly (everyMinute .skip)).step c a = some c' → DispatchedOnce c') overlapping
      ⟨emptyCluster,[]⟩ :=
  ⟨by decide +kernel,runs_dispatched_once utcOnly (everyMinute .skip) 0 (fun _ => none) 0 overlapping
    (by decide +kernel)⟩

-- the second timer is a millisecond late, after the first instance has released its lock
def afterRelease : List Step :=
  planned ++ dispatch 0 ++ ([.env (.advance 1000000),.exec 1 .done,.exec 1 .done] : List Step) ++
    (dispatch 1).take 3

-- the second timer is a second late while the first instance still holds the other key
def otherKey : List Step :=
  planned ++ (dispatch 0).take 1 ++
    ([.env (.advance 1000000000),.exec 1 .done,.exec 1 .done] : List Step) ++
    dispatch 1 ++ ([.exec 0 (.id "sched-0"),.exec 0 .done] : List Step)

theorem not_once_of_two {lib : Library} {task : Task} {c : Instances} {acts : List Step} {a : Step}
    {run : Time} (h : ((instances lib task).run (acts ++ [a]) c).map
      (fun c => c.shared.queue.map Prod.fst) = some [run,run]) :
    ¬ (instances lib task).Along (fun c a => ∀ c', (instances lib task).step c a = some c' →
      DispatchedOnce c') (acts ++ [a]) c := by
  intro halong
  obtain ⟨d,d',hrun,hs,hqueue⟩ := (instances lib task).run_last h
  have honce := (instances lib task).along_at halong hrun d' hs run
  have hcount : (d'.shared.queue.map Prod.fst).countP (fun t => decide (t = run)) =
      d'.shared.queue.countP (forRun run) := List.countP_map
  rw [← hcount,hqueue] at honce
  simp at honce

theorem late_timer_dispatches_again :
    ¬ (instances utcOnly (everyMinute .skip)).Along (fun c a => ∀ c',
      (instances utcOnly (everyMinute .skip)).step c a = some c' → DispatchedOnce c')
      (afterRelease ++ ([.exec 1 .done] : List Step)) ⟨emptyCluster,[]⟩ ∧
    ¬ (instances utcOnly (everyMinute .fireOnce)).Along (fun c a => ∀ c',
      (instances utcOnly (everyMinute .fireOnce)).step c a = some c' → DispatchedOnce c')
      (otherKey ++ ([.exec 0 .done] : List Step)) ⟨emptyCluster,[]⟩ := by
  have hrelease : ((instances utcOnly (everyMinute .skip)).run (afterRelease ++ ([.exec 1 .done] : List Step))
      ⟨emptyCluster,[]⟩).map (fun c => c.shared.queue.map Prod.fst) =
      some [60*second,60*second] := by decide +kernel
  have hkey : ((instances utcOnly (everyMinute .fireOnce)).run (otherKey ++ ([.exec 0 .done] : List Step))
      ⟨emptyCluster,[]⟩).map (fun c => c.shared.queue.map Prod.fst) =
      some [60*second,60*second] := by decide +kernel
  exact ⟨not_once_of_two hrelease,not_once_of_two hkey⟩

end Nimburion.Scheduler
