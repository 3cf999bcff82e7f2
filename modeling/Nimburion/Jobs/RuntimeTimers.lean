import Nimburion.Jobs.RuntimeLedger

namespace Nimburion.Jobs.RuntimeBackend
open Interaction GoText GoTime

section Timing

-- Reserve starts one timer and stores one lease
def arms (ev : Event Ans) : Bool :=
  match ev.op with
  | .afterFunc .. => true
  | .registerLease .. => true
  | _ => false

def fires (ev : Event Ans) : Bool :=
  match ev.op with
  | .fire _ => true
  | _ => false

-- the callback of the timer has started and has not got the mutex yet
def Fired (timer : ℕ) (token : String) (tr : Trace) : Prop := tr = [⟨.fire timer,token⟩]

def Timely (tr : Trace) : Op → Prop
  | .afterFunc _ token => (⟨.randomToken,token⟩ : Event Ans) ∈ tr ∧ tr.any arms = false
  | .registerLease token state => ∃ d rest, tr = ⟨.afterFunc d token,state.timer⟩ :: rest ∧
      (⟨.randomToken,token⟩ : Event Ans) ∈ rest ∧ rest.any arms = false
  | .popLease settler token => settler = .expiry → ∃ timer, Fired timer token tr
  | .fire _ => tr = []
  | .stopTimer _ => (∃ token state, (⟨.registerLease token state,false⟩ : Event Ans) ∈ tr) ∨
      ∃ taken, (⟨.close,some taken⟩ : Event Ans) ∈ tr
  | _ => True

def timing (_ : Call) : Spec Ans where
  pre tr op := Timely tr op ∧ ∀ timer token, Fired timer token tr → op = .popLease .expiry token
  ans _ _ := True

def Idle {α : Type} (tr : Trace) (_ : Except GoError α) : Prop :=
  ∀ timer token, ¬ Fired timer token tr

-- operations that have nothing to do with timers
def free : Op → Bool
  | .afterFunc .. => false
  | .registerLease .. => false
  | .popLease settler _ => settler ≠ .expiry
  | .fire _ => false
  | .stopTimer _ => false
  | _ => true

abbrev Free {α : Type} (p : M α) : Prop := Prog.Uses (fun op => free op = true) p

def Unfired (tr : Trace) : Prop := tr.any fires = false

theorem Unfired.idle {tr : Trace} (h : Unfired tr) (timer : ℕ) (token : String) :
    ¬ Fired timer token tr := by
  rintro rfl
  simp [Unfired,fires] at h

theorem timely_free {tr : Trace} {op : Op} (h : free op = true) : Timely tr op := by
  cases op <;> simp only [free,decide_eq_true_eq,Bool.false_eq_true] at h <;>
    first | trivial | exact fun heq => absurd heq h

theorem unfired_cons {tr : Trace} (ev : Event Ans) (hev : fires ev = false) (h : Unfired tr) :
    Unfired (ev :: tr) := by
  simp [Unfired,hev,show tr.any fires = false from h]

theorem pre_unfired {call : Call} {tr : Trace} {op : Op} (h : Timely tr op) (htr : Unfired tr) :
    (timing call).pre tr op :=
  ⟨h,fun timer token hf => absurd hf (htr.idle timer token)⟩

theorem free_event {ev : Event Ans} (h : free ev.op = true) :
    fires ev = false ∧ arms ev = false := by
  obtain ⟨op,ans⟩ := ev
  cases op <;> first | exact ⟨rfl,rfl⟩ | cases h

theorem meets_free {call : Call} {α : Type} {p : M α} {tr : Trace} (h : Free p) (htr : Unfired tr) :
    Prog.Meets (timing call) (fun tr' _ => Unfired tr' ∧
      tr'.any arms = tr.any arms) tr p := by
  apply Prog.Uses.meets (F := fun tr' => Unfired tr' ∧ tr'.any arms = tr.any arms) h
  · exact fun tr' op htr' hop => pre_unfired (timely_free hop) htr'.1
  · intro ev tr' hop htr'
    obtain ⟨hfires,harms⟩ := free_event hop
    refine ⟨unfired_cons ev hfires htr'.1,?_⟩
    rw [List.any_cons,harms,Bool.false_or]
    exact htr'.2
  · exact ⟨htr,rfl⟩

theorem free_fail {α : Type} (e : GoError) : Free (Prog.fail e : M α) := fun _ => trivial

theorem free_lift {α : Type} (r : Except GoError α) : Free (Prog.liftExcept r : M α) := by
  cases r
  · exact free_fail _
  · exact Prog.Obeys.pure _

theorem free_now : Free now := Prog.Obeys.perform fun _ => rfl

theorem free_orNow (t : Time) : Free (orNow t) := Prog.Obeys.ite free_now (Prog.Obeys.pure _)

theorem free_complete (delivery : ℕ) (err : Option GoError) : Free (complete delivery err) :=
  Prog.Obeys.perform fun _ => rfl

theorem free_ensureSubscription (queue : String) : Free (ensureSubscription queue) := by
  refine Prog.Obeys.step (fun _ => rfl) ?_
  rintro (e | sub | sub)
  · exact free_fail e
  · exact Prog.Obeys.pure sub
  · refine Prog.Obeys.step (fun _ => rfl) ?_
    rintro (e | _)
    · exact Prog.Obeys.step (fun _ => rfl) fun _ => Prog.Obeys.step (fun _ => rfl) fun _ =>
        free_fail _
    · exact Prog.Obeys.pure sub

theorem free_popLease {settler : Settler} (h : settler ≠ .expiry) (lease : Option Lease) :
    Free (popLease settler lease) := by
  cases lease with
  | none => exact free_fail _
  | some lease =>
    refine Prog.Obeys.ite (free_fail _) (Prog.Obeys.step (fun _ => decide_eq_true h) ?_)
    rintro (_ | state)
    · exact free_fail _
    · exact Prog.Obeys.pure state

theorem free_replace (delivery : ℕ) (job : Job) (msg : String) : Free (replace delivery job msg) := by
  refine Prog.Obeys.step (fun _ => rfl) ?_
  rintro (e | _)
  · exact (free_complete _ _).bind fun _ => free_fail _
  · exact free_complete _ _

theorem free_waitUntil (runAt : Time) : Free (waitUntil runAt) :=
  free_now.bind fun _ => Prog.Obeys.ite (Prog.Obeys.perform fun _ => rfl) (Prog.Obeys.pure _)

theorem free_nack (lease : Option Lease) (nextRunAt : Time) (reason : Option GoError) :
    Free (nack lease nextRunAt reason) := by
  refine (free_popLease (by simp) lease).bind fun state => free_now.bind fun failedAt =>
    (free_orNow nextRunAt).bind fun runAt => (free_waitUntil runAt).bind ?_
  rintro (e | _)
  · exact (free_complete _ _).bind fun _ => free_fail _
  · exact free_replace _ _ _

theorem free_renew (lease : Option Lease) (leaseFor : Duration) : Free (renew lease leaseFor) := by
  cases lease with
  | none => exact free_fail _
  | some lease =>
    exact Prog.Obeys.ite (free_fail _) (Prog.Obeys.step (fun _ => rfl) fun _ =>
      Prog.Obeys.ite (Prog.Obeys.pure _) (free_fail _))

theorem free_moveToDLQ (b : Config) (lease : Option Lease) (reason : Option GoError) :
    Free (moveToDLQ b lease reason) :=
  (free_popLease (by simp) lease).bind fun _ => free_now.bind fun _ => free_replace _ _ _

theorem free_unsubscribeAll (subs : List (String × ℕ)) : Free (unsubscribeAll subs) := by
  induction subs with
  | nil => exact Prog.Obeys.pure _
  | cons e subs ih =>
    refine Prog.Obeys.step (fun _ => rfl) fun _ => Prog.Obeys.step (fun _ => rfl) fun r =>
      ih.bind fun errs => ?_
    cases r <;> exact Prog.Obeys.pure _

theorem free_closeRuntime (b : Config) : Free (closeRuntime b) := by
  refine Prog.Obeys.ite (Prog.Obeys.step (fun _ => rfl) ?_) (Prog.Obeys.pure _)
  rintro (e | _) <;> exact Prog.Obeys.pure _

theorem free_joined (errs : List GoError) : Free (joined errs) := by
  cases errs with
  | nil => exact Prog.Obeys.pure _
  | cons e errs => exact free_fail _

theorem free_handle (sub : ℕ) (job : Option Job) : Free (handle sub job) := by
  refine Prog.Obeys.step (fun _ => rfl) ?_
  rintro (e | delivery)
  · exact free_fail _
  · refine Prog.Obeys.step (fun _ => rfl) ?_
    rintro (e | _ | e)
    · exact free_fail _
    · exact Prog.Obeys.pure _
    · exact free_fail _

variable {call : Call} {α : Type} {tr : Trace}

theorem timely_lease {queue : String} {leaseFor : Duration} {delivery : ℕ} {job : Job}
    (htr : Unfired tr) (hnone : tr.any arms = false) :
    Prog.Meets (timing call) (fun tr' _ => Unfired tr') tr (lease queue leaseFor delivery job) := by
  simp only [lease,Prog.meets_bind,Prog.meets_perform]
  refine ⟨pre_unfired trivial htr,fun token _ => ?_⟩
  have htoken : Unfired (⟨.randomToken,token⟩ :: tr) := unfired_cons _ rfl htr
  refine ⟨pre_unfired trivial htoken,fun now _ => ?_⟩
  have hnow : Unfired (⟨.now,now⟩ :: ⟨.randomToken,token⟩ :: tr) := unfired_cons _ rfl htoken
  have harms : (⟨.now,now⟩ :: ⟨.randomToken,token⟩ :: tr : Trace).any arms = false := by
    simpa [arms] using hnone
  refine ⟨pre_unfired ⟨by simp,harms⟩ hnow,fun timer _ => ?_⟩
  have htimer := unfired_cons ⟨.afterFunc leaseFor token,timer⟩ rfl hnow
  refine ⟨pre_unfired ⟨leaseFor,_,rfl,by simp,harms⟩ htimer,fun registered _ => ?_⟩
  cases registered with
  | true => exact unfired_cons _ rfl htimer
  | false =>
    simp only [Bool.false_eq_true,if_false,complete,Prog.meets_bind,Prog.meets_fail]
    refine ⟨pre_unfired (.inl ⟨token,_,List.mem_cons_self⟩) (unfired_cons _ rfl htimer),fun _ _ => ?_⟩
    have hstopped := unfired_cons ⟨.stopTimer timer,()⟩ rfl (unfired_cons
      ⟨.registerLease token ⟨⟨trimSpace job.id,token,queue,now+leaseFor,job.attempt⟩,
        delivery,job,timer⟩,false⟩ rfl htimer)
    exact ⟨pre_unfired trivial hstopped,fun _ _ => unfired_cons _ rfl hstopped⟩

theorem timely_reserve (queue : String) (leaseFor : Duration) :
    Prog.Meets (timing call) (fun tr' _ => Unfired tr') [] (reserve queue leaseFor) := by
  simp only [reserve,Prog.meets_ite,Prog.meets_fail]
  refine ⟨fun _ => rfl,fun _ => ?_⟩
  simp only [Prog.meets_bind]
  refine Prog.meets_mono ?_ (meets_free (free_ensureSubscription (trimSpace queue)) rfl)
  rintro tr (e | sub) ⟨hunfired,hnone⟩
  · exact hunfired
  refine ⟨pre_unfired trivial hunfired,fun received _ => ?_⟩
  have hreceived := unfired_cons ⟨.receive sub,received⟩ rfl hunfired
  rcases received with e | ⟨delivery,_ | job⟩
  · exact hreceived
  · exact hreceived
  · exact timely_lease hreceived (by simpa [arms] using hnone)

theorem timely_releaseLeases {leases : List (String × LeaseState)} (htr : Unfired tr)
    (hclosed : ∃ taken, (⟨.close,some taken⟩ : Event Ans) ∈ tr) :
    Prog.Meets (timing call) (fun tr' _ => Unfired tr') tr (releaseLeases leases) := by
  induction leases generalizing tr with
  | nil => exact htr
  | cons e leases ih =>
    obtain ⟨taken,hmem⟩ := hclosed
    simp only [releaseLeases,complete,Prog.meets_bind]
    refine ⟨pre_unfired (.inr ⟨taken,hmem⟩) htr,fun _ _ => ?_⟩
    have hstopped := unfired_cons ⟨.stopTimer e.2.timer,()⟩ rfl htr
    refine ⟨pre_unfired trivial hstopped,fun _ _ => ?_⟩
    exact ih (unfired_cons _ rfl hstopped) ⟨taken,by simp [hmem]⟩

theorem timely_close (b : Config) :
    Prog.Meets (timing call) (fun tr' _ => Unfired tr') [] (close b) := by
  simp only [close,Prog.meets_bind,Prog.meets_perform]
  refine ⟨pre_unfired trivial rfl,fun taken _ => ?_⟩
  cases taken with
  | none => exact rfl
  | some taken =>
    dsimp only
    rw [Prog.meets_bind]
    refine Prog.meets_mono ?_ (timely_releaseLeases rfl ⟨taken,List.mem_cons_self⟩)
    rintro tr (e | _) htr
    · exact htr
    have hrest : Free (do
        let errs ← unsubscribeAll taken.1
        let errs' ← closeRuntime b
        joined (errs ++ errs')) :=
      (free_unsubscribeAll _).bind fun _ => (free_closeRuntime b).bind fun _ => free_joined _
    exact Prog.meets_mono (fun _ _ h => h.1) (meets_free hrest htr)

theorem timely_expireLease (timer : ℕ) :
    Prog.Meets (timing call) Idle [] (expireLease timer) := by
  simp only [expireLease,Prog.meets_bind,Prog.meets_perform]
  refine ⟨⟨rfl,fun _ _ hf => absurd hf (by simp [Fired])⟩,fun token _ => ?_⟩
  refine ⟨⟨fun _ => ⟨timer,rfl⟩,?_⟩,fun popped _ => ?_⟩
  · intro timer' token' hf
    cases hf
    rfl
  have hidle : ∀ timer' token', ¬ Fired timer' token'
      [⟨.popLease .expiry token,popped⟩,⟨.fire timer,token⟩] := by simp [Fired]
  cases popped with
  | none => exact hidle
  | some state =>
    refine ⟨⟨trivial,fun timer' token' hf => absurd hf (hidle timer' token')⟩,fun _ _ => ?_⟩
    simp [Idle,Fired]

-- a call that answers nil when it is done
theorem timely_nil {p : M Unit} (h : Prog.Meets (timing call) Idle [] p) :
    Prog.Meets (timing call) Idle [] (do p; pure Reply.nil) := by
  rw [Prog.meets_bind]
  refine Prog.meets_mono ?_ h
  rintro tr (e | _) hidle <;> exact hidle

theorem timely_of_free {p : M Unit} (h : Free p) : Prog.Meets (timing call) Idle [] p :=
  Prog.meets_mono (fun _ _ h => h.1.idle) (meets_free h rfl)

theorem program_timely (b : Config) (call : Call) :
    Prog.Meets (timing call) Idle [] (program b call) := by
  cases call with
  | enqueue job =>
    exact timely_nil (timely_of_free (Prog.Obeys.step (fun _ => rfl) fun r => free_lift r))
  | reserve queue leaseFor =>
    simp only [program]
    rw [Prog.meets_bind]
    refine Prog.meets_mono ?_ (timely_reserve queue leaseFor)
    rintro tr (e | r) htr <;> exact htr.idle
  | ack lease =>
    exact timely_nil (timely_of_free ((free_popLease (by simp) lease).bind fun _ =>
      free_complete _ _))
  | nack lease nextRunAt reason => exact timely_nil (timely_of_free (free_nack _ _ _))
  | renew lease leaseFor => exact timely_nil (timely_of_free (free_renew _ _))
  | moveToDLQ lease reason => exact timely_nil (timely_of_free (free_moveToDLQ _ _ _))
  | healthCheck =>
    exact timely_nil (timely_of_free (Prog.Obeys.step (fun _ => rfl) fun r => free_lift r))
  | close => exact timely_nil (Prog.meets_mono (fun _ _ h => h.idle) (timely_close b))
  | expireLease timer => exact timely_nil (timely_expireLease timer)
  | handle sub job => exact timely_nil (timely_of_free (free_handle sub job))

end Timing

end Nimburion.Jobs.RuntimeBackend
