import Nimburion.Lib.Goroutine
import Nimburion.Jobs.Worker
import Nimburion.Resilience.CircuitBreaker

namespace Nimburion.Jobs.HandlerPanic
open Interaction Goroutine Transition GoText GoTime
open Worker (WorkerConfig)

section Model

-- a panic value, as %v prints it
structure PanicValue where
  text : String
  deriving DecidableEq, Repr

inductive Handled where
  | returned (err : Option GoError)
  | panicked (v : PanicValue)
  deriving DecidableEq, Repr

inductive Selected where
  | done (err : Option GoError)
  | ctxDone
  deriving DecidableEq, Repr

structure TimeoutCtx where
  deadline : Time
  deriving DecidableEq, Repr

inductive Op where
  | worker (op : Worker.Op)
  | withTimeout (timeout : Duration)
  | go (job : Job)
  | handler (job : Job)
  | send (err : Option GoError)
  | select (ctx : TimeoutCtx)
  | ctxErr (ctx : TimeoutCtx)
  | cancel
  | stack

abbrev Ans : Op → Type
  | .worker op => Worker.Ans op
  | .withTimeout _ => TimeoutCtx
  | .go _ => Unit
  | .handler _ => Handled
  | .send _ => Unit
  | .select _ => Selected
  | .ctxErr _ => GoError
  | .cancel => Unit
  | .stack => String

abbrev G := Prog Op Ans PanicValue

-- the goroutine of WithTimeout
def timed (job : Job) : G Unit := do
  let r ← Prog.perform (Op.handler job)
  match r with
  | .panicked v => Prog.fail v
  | .returned err => Prog.perform (Op.send err)

def selected (ctx : TimeoutCtx) : Selected → G (Option GoError)
  | .done err => pure (Resilience.withTimeout (.finished err))
  | .ctxDone => do
      let err ← Prog.perform (Op.ctxErr ctx)
      pure (Resilience.withTimeout (.ended err))

def withTimeout (timeout : Duration) (job : Job) : G (Option GoError) := do
  let ctx ← Prog.perform (Op.withTimeout timeout)
  Prog.perform (Op.go job)
  let picked ← Prog.perform (Op.select ctx)
  let err ← selected ctx picked
  Prog.perform Op.cancel
  pure err

def panicError (v : PanicValue) (stack : String) : GoError :=
  .text ("panic while handling job: " ++ v.text ++ "; stack=" ++ stack)

def executeHandler (cfg : WorkerConfig) (job : Job) : G (Option GoError) :=
  recovering (withTimeout cfg.retry.attemptTimeout job) fun v => do
    let stack ← Prog.perform Op.stack
    pure (some (panicError v stack))

-- a program of the worker as its goroutine runs it
def expand {α : Type} (cfg : WorkerConfig) : Worker.M α → G (Except GoError α)
  | .ret a => pure (.ok a)
  | .fail e => pure (.error e)
  | .call (.executeHandler job) k => do
      let err ← executeHandler cfg job
      expand cfg (k err)
  | .call op k => do
      let a ← Prog.perform (Op.worker op)
      expand cfg (k a)

def worker (cfg : WorkerConfig) (registered : String → Bool) (job : Job) (lease : Lease) :
    G Unit := do
  let _ ← expand cfg (Worker.process cfg registered job lease)
  pure ()

-- the calls by which process and handleFailure settle the lease
def settles : Op → Bool
  | .worker (.ack _) => true
  | .worker (.nack ..) => true
  | .worker (.moveToDLQ ..) => true
  | .worker (.quarantine _) => true
  | _ => false

structure Shared where
  clock : Time
  canceled : Bool
  done : Option (Option GoError)
  settling : Bool

inductive Choice where
  | proceed
  | oracle (answers : (op : Worker.Op) → Worker.Ans op)
  | handled (r : Handled)
  | pickDone
  | pickCtx
  | pickCanceled
  | stack (text : String)

inductive Outside where
  | elapse (d : ℕ)
  | cancel

def exec (s : Shared) : (op : Op) → Choice → Option (Ans op × Shared)
  | .worker op,.oracle answers =>
      some (answers op,{ s with settling := s.settling || settles (.worker op) })
  | .withTimeout timeout,.proceed => some (⟨s.clock+timeout⟩,s)
  | .go _,.proceed => some ((),s)
  | .handler _,.handled r => some (r,s)
  | .send err,.proceed => if s.done.isNone then some ((),{ s with done := some err }) else none
  | .select _,.pickDone => s.done.map fun err => (.done err,{ s with done := none })
  | .select ctx,.pickCtx =>
      if s.canceled || ctx.deadline ≤ s.clock then some (.ctxDone,s) else none
  | .ctxErr _,.pickCanceled => if s.canceled then some (.contextCanceled,s) else none
  | .ctxErr ctx,.pickCtx =>
      if ctx.deadline ≤ s.clock then some (.deadlineExceeded,s) else none
  | .cancel,.proceed => some ((),s)
  | .stack,.stack text => some (text,s)
  | _,_ => none

def outside (s : Shared) : Outside → Shared
  | .elapse d => { s with clock := s.clock+d }
  | .cancel => { s with canceled := true }

def process : Process Ans PanicValue Shared Choice Outside where
  starts
    | .go job => some (timed job)
    | _ => none
  exec := exec
  env := outside

abbrev State := Goroutine.State Ans PanicValue Shared

abbrev Act := Goroutine.Act Choice Outside

def start (clock : Time) (w : G Unit) : State := ⟨⟨clock,false,none,false⟩,[w]⟩

def Waits : Outside → Prop
  | .elapse _ => True
  | .cancel => False

-- the process is up and the worker's goroutine gets to Ack or handleFailure
def Contained (st : State) : Prop :=
  ended st = false ∧ process.Inevitable Waits 0 (fun st => st.shared.settling = true) st

-- the handler does only what `H` says
def Allowed (H : Handled → Prop) (_ : State) : Act → Prop
  | .exec _ (.handled r) => H r
  | _ => True

end Model

section Settling

abbrev Trace := List (Interaction.Event Ans)

def Settled (tr : Trace) : Prop := ∃ ev ∈ tr, settles ev.op = true

theorem Settled.mono {tr tr' : Trace} (h : Settled tr) (hsuf : tr <:+ tr') : Settled tr' := by
  obtain ⟨ev,hev,hs⟩ := h
  exact ⟨ev,hsuf.subset hev,hs⟩

-- the worker's goroutine neither calls the handler nor sends on the channel
def workerSpec : Spec Ans where
  pre _ op := match op with
    | .handler _ => False
    | .send _ => False
    | _ => True
  ans _ _ := True

def settlesAll {α : Type} (tr : Trace) (r : Except PanicValue α) : Prop :=
  (∃ a, r = .ok a) ∧ Settled tr

theorem meets_selected {ctx : TimeoutCtx} {picked : Selected} {tr : Trace}
    {post : Trace → Except PanicValue (Option GoError) → Prop}
    (h : ∀ tr' err, tr <:+ tr' → post tr' (.ok err)) :
    Prog.Meets workerSpec post tr (selected ctx picked) := by
  cases picked with
  | done err => exact h tr err (List.suffix_refl _)
  | ctxDone => exact ⟨trivial,fun err _ => h _ _ (List.suffix_cons _ _)⟩

theorem meets_withTimeout {timeout : Duration} {job : Job} {tr : Trace}
    {post : Trace → Except PanicValue (Option GoError) → Prop}
    (h : ∀ tr' err, tr <:+ tr' → post tr' (.ok err)) :
    Prog.Meets workerSpec post tr (withTimeout timeout job) := by
  simp only [withTimeout,Prog.meets_bind,Prog.meets_perform,Prog.meets_pure]
  refine ⟨trivial,fun ctx _ => ⟨trivial,fun _ _ => ⟨trivial,fun picked _ => ?_⟩⟩⟩
  apply meets_selected
  intro tr' err hsuf
  refine ⟨trivial,fun _ _ => h _ _ ?_⟩
  refine List.IsSuffix.trans ?_ (hsuf.trans (List.suffix_cons _ _))
  exact ⟨[_,_,_],rfl⟩

theorem meets_executeHandler {cfg : WorkerConfig} {job : Job} {tr : Trace}
    {post : Trace → Except PanicValue (Option GoError) → Prop}
    (h : ∀ tr' err, tr <:+ tr' → post tr' (.ok err)) :
    Prog.Meets workerSpec post tr (executeHandler cfg job) := by
  simp only [executeHandler,recovering,Prog.meets_bind,Prog.meets_attempt]
  exact meets_withTimeout h

def anyAnswers : Spec Worker.Ans := ⟨fun _ _ => True,fun _ _ => True⟩

def executes : Worker.Op → Bool
  | .executeHandler _ => true
  | _ => false

def withoutHandler : Spec Worker.Ans := ⟨fun _ op => executes op = false,fun _ _ => True⟩

def WorkerSettled (wtr : List (Interaction.Event Worker.Ans)) : Prop :=
  ∃ ev ∈ wtr, settles (.worker ev.op) = true

theorem meets_expand {α : Type} (cfg : WorkerConfig) {p : Worker.M α}
    {wtr : List (Interaction.Event Worker.Ans)} {tr : Trace}
    (hsettled : WorkerSettled wtr → Settled tr)
    (h : Prog.Meets anyAnswers (fun wtr _ => WorkerSettled wtr) wtr p) :
    Prog.Meets workerSpec settlesAll tr (expand cfg p) := by
  induction p generalizing wtr tr with
  | ret a => exact ⟨⟨_,rfl⟩,hsettled h⟩
  | fail e => exact ⟨⟨_,rfl⟩,hsettled h⟩
  | call op k ih =>
    have hnext : ∀ a tr', tr <:+ tr' → (settles (.worker op) = true → Settled tr') →
        Prog.Meets workerSpec settlesAll tr' (expand cfg (k a)) := by
      intro a tr' hsuf hop
      apply ih a _ (h.2 a trivial)
      rintro ⟨ev,hev,hs⟩
      rcases List.mem_cons.mp hev with rfl | hev
      · exact hop hs
      · exact (hsettled ⟨ev,hev,hs⟩).mono hsuf
    cases op with
    | executeHandler job =>
      simp only [expand,Prog.meets_bind]
      apply meets_executeHandler
      intro tr' err hsuf
      exact hnext err tr' hsuf (by simp [settles])
    | _ =>
      simp only [expand,Prog.meets_bind,Prog.meets_perform]
      refine ⟨trivial,fun a _ => hnext a _ (List.suffix_cons _ _) ?_⟩
      exact fun hs => ⟨_,List.mem_cons_self,hs⟩

theorem meets_orFail {kind : JobsErrorKind} {msg : String} {r : Except GoError Unit}
    {wtr : List (Interaction.Event Worker.Ans)} (h : WorkerSettled wtr) :
    Prog.Meets withoutHandler (fun wtr _ => WorkerSettled wtr) wtr (Worker.orFail kind msg r) := by
  cases r <;> exact h

theorem WorkerSettled.cons {wtr : List (Interaction.Event Worker.Ans)}
    {ev : Interaction.Event Worker.Ans} (h : settles (.worker ev.op) = true) :
    WorkerSettled (ev :: wtr) := ⟨ev,List.mem_cons_self,h⟩

theorem meets_moveToDLQ (lease : Lease) (failure : GoError)
    (wtr : List (Interaction.Event Worker.Ans)) :
    Prog.Meets withoutHandler (fun wtr _ => WorkerSettled wtr) wtr (Worker.moveToDLQ lease failure) := by
  simp only [Worker.moveToDLQ,Prog.meets_bind,Prog.meets_perform]
  exact ⟨rfl,fun _ _ => meets_orFail (.cons rfl)⟩

theorem meets_handleFailure (cfg : WorkerConfig) (job : Job) (lease : Lease) (failure : GoError)
    (wtr : List (Interaction.Event Worker.Ans)) :
    Prog.Meets withoutHandler (fun wtr _ => WorkerSettled wtr) wtr
      (Worker.handleFailure cfg job lease failure) := by
  unfold Worker.handleFailure
  dsimp only
  split
  · simp only [Prog.meets_bind,Prog.meets_perform]
    exact ⟨rfl,fun _ _ => ⟨rfl,fun _ _ => meets_orFail (.cons rfl)⟩⟩
  · rw [Prog.meets_ite]
    refine ⟨fun _ => ?_,fun _ => meets_moveToDLQ _ _ _⟩
    simp only [Prog.meets_bind,Prog.meets_perform]
    refine ⟨rfl,fun _ _ => ⟨rfl,fun stored _ => ?_⟩⟩
    cases stored with
    | error e => exact .cons rfl
    | ok _ => exact ⟨rfl,fun _ _ => meets_orFail (.cons rfl)⟩
  · exact meets_moveToDLQ _ _ _
  all_goals
    simp only [Prog.meets_bind,Prog.meets_perform]
    refine ⟨rfl,fun acked _ => ?_⟩
    cases acked <;> exact .cons rfl

theorem meets_failure (cfg : WorkerConfig) (job : Job) (lease : Lease) (failure : GoError)
    (wtr : List (Interaction.Event Worker.Ans)) :
    Prog.Meets anyAnswers (fun wtr _ => WorkerSettled wtr) wtr
      (Worker.handleFailure cfg job lease failure) :=
  Prog.meets_weaken (fun _ _ _ => trivial) (fun _ _ _ => trivial)
    (meets_handleFailure cfg job lease failure wtr)

theorem meets_process (cfg : WorkerConfig) (registered : String → Bool) (job : Job)
    (lease : Lease) : Prog.Meets anyAnswers (fun wtr _ => WorkerSettled wtr) []
      (Worker.process cfg registered job lease) := by
  unfold Worker.process
  rw [Prog.meets_ite]
  refine ⟨fun _ => ?_,fun _ => meets_failure _ _ _ _ _⟩
  simp only [Prog.meets_bind,Prog.meets_perform]
  refine ⟨trivial,fun _ _ => ⟨trivial,fun execErr _ => ⟨trivial,fun _ _ => ⟨trivial,fun renewErr _ =>
    ?_⟩⟩⟩⟩
  cases Worker.joinErrors execErr renewErr with
  | some failure => exact meets_failure _ _ _ _ _
  | none =>
    simp only [Prog.meets_bind,Prog.meets_perform]
    refine ⟨trivial,fun acked _ => ?_⟩
    cases acked <;> exact .cons rfl

theorem meets_worker (cfg : WorkerConfig) (registered : String → Bool) (job : Job)
    (lease : Lease) : Prog.Meets workerSpec settlesAll [] (worker cfg registered job lease) := by
  simp only [worker,Prog.meets_bind,Prog.meets_pure]
  have hnone : WorkerSettled [] → Settled [] := by
    rintro ⟨_,h,_⟩
    cases h
  refine Prog.meets_mono ?_ (meets_expand cfg hnone (meets_process cfg registered job lease))
  rintro tr r ⟨⟨a,rfl⟩,hs⟩
  exact ⟨⟨(),rfl⟩,hs⟩

end Settling

section Running

variable {st st' : State}

-- what the worker's goroutine has still to do
structure Serving (st : State) (p : G Unit) (tr : Trace) : Prop where
  there : st.goroutines[0]? = some p
  meets : Prog.Meets workerSpec settlesAll tr p
  seen : Settled tr → st.shared.settling = true

theorem exec_settling {s s' : Shared} {op : Op} {x : Choice} {a : Ans op}
    (h : exec s op x = some (a,s')) :
    (s.settling = true ∨ settles op = true) → s'.settling = true := by
  intro hor
  have hsame : settles op = false → s.settling = true := by
    intro hno
    rcases hor with hs | hs
    · exact hs
    · rw [hno] at hs
      cases hs
  cases op with
  | worker op =>
    cases x <;> simp only [exec,Option.some.injEq,Prod.mk.injEq,reduceCtorEq] at h
    rw [← h.2,Bool.or_eq_true]
    exact hor
  | send err =>
    cases x <;> simp only [exec,Option.ite_none_right_eq_some,Option.some.injEq,Prod.mk.injEq,
      reduceCtorEq] at h
    rw [← h.2.2]
    exact hsame rfl
  | select ctx =>
    cases x <;> simp only [exec,Option.ite_none_right_eq_some,Option.map_eq_some_iff,
      Option.some.injEq,Prod.mk.injEq,reduceCtorEq] at h
    · obtain ⟨err,-,-,rfl⟩ := h
      exact hsame rfl
    · rw [← h.2.2]
      exact hsame rfl
  | ctxErr ctx =>
    cases x <;> simp only [exec,Option.ite_none_right_eq_some,Option.some.injEq,Prod.mk.injEq,
      reduceCtorEq] at h
    all_goals
      rw [← h.2.2]
      exact hsame rfl
  | _ =>
    cases x <;> simp only [exec,Option.some.injEq,Prod.mk.injEq,reduceCtorEq] at h
    rw [← h.2]
    exact hsame rfl

theorem Serving.own {op : Op} {k : Ans op → G Unit} {tr : Trace} {x : Choice}
    (h : Serving st (.call op k) tr) (hs : process.step st (.exec 0 x) = some st') :
    ∃ a, Serving st' (k a) (⟨op,a⟩ :: tr) := by
  obtain ⟨_,⟨i,y,op',k',a,s',hact,hg,hx,rfl⟩ | ⟨e,hact,_⟩⟩ := Process.step_cases hs
  · cases hact
    rw [h.there,Option.some.injEq] at hg
    cases hg
    have hlen : 0 < st.goroutines.length := (List.getElem?_eq_some_iff.mp h.there).1
    refine ⟨a,?_,h.meets.2 a trivial,?_⟩
    · rw [List.getElem?_append_left (by rwa [List.length_set]),List.getElem?_set_self hlen]
    · rintro ⟨ev,hev,hsettles⟩
      apply exec_settling hx
      rcases List.mem_cons.mp hev with rfl | hev
      · exact .inr hsettles
      · exact .inl (h.seen ⟨ev,hev,hsettles⟩)
  · cases hact

theorem Serving.other {p : G Unit} {tr : Trace} {a : Act} (h : Serving st p tr)
    (hother : ∀ x, a ≠ .exec 0 x) (hs : process.step st a = some st') : Serving st' p tr := by
  have hlen : 0 < st.goroutines.length := (List.getElem?_eq_some_iff.mp h.there).1
  obtain ⟨_,⟨i,x,op,k,ans,s',rfl,hg,hx,rfl⟩ | ⟨e,rfl,rfl⟩⟩ := Process.step_cases hs
  · have hi : i ≠ 0 := by
      rintro rfl
      exact hother x rfl
    refine ⟨?_,h.meets,fun hsettled => exec_settling hx (.inl (h.seen hsettled))⟩
    rw [List.getElem?_append_left (by rwa [List.length_set]),List.getElem?_set_ne hi]
    exact h.there
  · refine ⟨h.there,h.meets,fun hsettled => ?_⟩
    cases e <;> exact h.seen hsettled

theorem serving_step {a : Act} (h : ∃ p tr, Serving st p tr) (hs : process.step st a = some st') :
    ∃ p tr, Serving st' p tr := by
  obtain ⟨p,tr,h⟩ := h
  by_cases hown : ∃ x, a = .exec 0 x
  · obtain ⟨x,rfl⟩ := hown
    cases p with
    | call op k =>
      obtain ⟨ans,h'⟩ := h.own hs
      exact ⟨_,_,h'⟩
    | ret r => simp [Process.step,h.there,Process.advance] at hs
    | fail v => simp [Process.step,h.there,Process.advance] at hs
  · exact ⟨p,tr,h.other (fun x hx => hown ⟨x,hx⟩) hs⟩

def someAnswer : (op : Worker.Op) → Worker.Ans op
  | .executeHandler _ => none
  | .startLeaseRenewal _ => ()
  | .stopRenew => ()
  | .renewDone => none
  | .now => 0
  | .ack _ => .ok ()
  | .nack .. => .ok ()
  | .moveToDLQ .. => .ok ()
  | .quarantine _ => .ok ()

-- no operation of the worker waits longer than the deadline
theorem exec_after_wait (s : Shared) {op : Op} (hpre : workerSpec.pre [] op) :
    ∃ d x r, exec (outside s (.elapse d)) op x = some r := by
  have hdeadline : ∀ deadline : Time, deadline ≤ s.clock + ((deadline - s.clock).toNat : Int) := by
    intro deadline
    exact Int.le_add_of_sub_left_le (Int.self_le_toNat (deadline - s.clock))
  cases op with
  | worker op => exact ⟨0,.oracle someAnswer,_,rfl⟩
  | withTimeout | go | cancel => exact ⟨0,.proceed,_,rfl⟩
  | stack => exact ⟨0,.stack "",_,rfl⟩
  | handler => exact hpre.elim
  | send => exact hpre.elim
  | select ctx =>
    refine ⟨(ctx.deadline - s.clock).toNat,.pickCtx,
      (.ctxDone,outside s (.elapse (ctx.deadline - s.clock).toNat)),?_⟩
    simp only [exec,outside,hdeadline,decide_true,Bool.or_true,if_true]
  | ctxErr ctx =>
    refine ⟨(ctx.deadline - s.clock).toNat,.pickCtx,
      (.deadlineExceeded,outside s (.elapse (ctx.deadline - s.clock).toNat)),?_⟩
    simp only [exec,outside,hdeadline,if_true]

theorem alive_own {op : Op} {k : Ans op → G Unit} {tr : Trace} {x : Choice}
    (h : Serving st (.call op k) tr) (hs : process.step st (.exec 0 x) = some st') :
    ended st' = false := by
  obtain ⟨halive,⟨i,y,op',k',a,s',hact,hg,hx,rfl⟩ | ⟨e,hact,_⟩⟩ := Process.step_cases hs
  · cases hact
    rw [h.there,Option.some.injEq] at hg
    cases hg
    have hrest := h.meets.2 a trivial
    simp only [ended,List.any_eq_false] at halive ⊢
    intro g hg
    rcases List.mem_append.mp hg with hg | hg
    · rcases List.mem_or_eq_of_mem_set hg with hg | rfl
      · exact halive g hg
      · cases hk : k a with
        | ret r => simp [panicking]
        | call op k => simp [panicking]
        | fail v =>
          rw [hk] at hrest
          obtain ⟨⟨_,hv⟩,_⟩ := hrest
          cases hv
    · cases op with
      | go job =>
        rw [List.mem_singleton.mp hg]
        exact Bool.false_ne_true
      | _ => cases hg
  · cases hact

theorem inevitable_of_serving {p : G Unit} {tr : Trace} (h : Serving st p tr)
    (halive : ended st = false) :
    process.Inevitable Waits 0 (fun st => st.shared.settling = true) st := by
  induction p generalizing st tr with
  | ret a => exact .here (h.seen h.meets.2)
  | fail v =>
    obtain ⟨⟨_,hv⟩,_⟩ := h.meets
    cases hv
  | call op k ih =>
    have hpre : workerSpec.pre [] op := h.meets.1
    obtain ⟨d,x,r,hx⟩ := exec_after_wait st.shared hpre
    have hwait : process.step st (.env (.elapse d)) =
        some { st with shared := outside st.shared (.elapse d) } := by
      simp [Process.step,halive,process]
    have hserving := h.other (by simp) hwait
    refine .wait (.elapse d) trivial hwait (.next ?_ ?_)
    · exact ⟨x,_,Process.step_exec halive hserving.there hx⟩
    · intro y st' hs
      obtain ⟨a,h'⟩ := hserving.own hs
      exact ih a h' (alive_own hserving hs)

end Running

section Containment

variable (cfg : WorkerConfig) (registered : String → Bool) (job : Job) (lease : Lease)

def handlerSpec (H : Handled → Prop) : Spec Ans where
  pre _ _ := True
  ans op a := match op,a with
    | .handler _,r => H r
    | _,_ => True

theorem returns_timed {H : Handled → Prop} (hH : ∀ v, ¬ H (.panicked v)) (job : Job) :
    Process.Returns (handlerSpec H) (timed job) := by
  refine ⟨[],trivial,fun r hr => ?_⟩
  cases r with
  | panicked v => exact absurd hr (hH v)
  | returned err => exact ⟨trivial,fun _ _ => ⟨(),rfl⟩⟩

theorem returns_worker (H : Handled → Prop) :
    Process.Returns (handlerSpec H) (worker cfg registered job lease) := by
  have hmeets : Prog.Meets (handlerSpec H) settlesAll [] (worker cfg registered job lease) :=
    Prog.meets_weaken (fun _ _ _ => trivial) (fun _ _ _ => trivial)
      (meets_worker cfg registered job lease)
  exact ⟨[],Prog.meets_mono (fun _ _ h => h.1) hmeets⟩

theorem exec_handled {H : Handled → Prop} {st : State} {i : ℕ} {x : Choice} {op : Op} {a : Ans op}
    {s' : Shared} (hP : Allowed H st (.exec i x)) (hx : exec st.shared op x = some (a,s')) :
    (handlerSpec H).ans op a := by
  cases op with
  | handler job =>
    cases x <;> simp only [exec,Option.some.injEq,Prod.mk.injEq,reduceCtorEq] at hx
    rw [← hx.1]
    exact hP
  | _ => trivial

variable {cfg registered job lease} {clock : Time} {acts : List Act} {st : State}

theorem contained_of_alive
    (hrun : run process.step acts (start clock (worker cfg registered job lease)) = some st)
    (halive : ended st = false) : Contained st := by
  have hserving : ∃ p tr, Serving st p tr := by
    refine run_reaches (I := fun st => ∃ p tr, Serving st p tr) ?_ ?_ hrun
    · exact fun _ _ _ h hs => serving_step h hs
    · refine ⟨_,[],rfl,meets_worker cfg registered job lease,?_⟩
      exact fun ⟨_,hev,_⟩ => absurd hev List.not_mem_nil
  obtain ⟨p,tr,h⟩ := hserving
  exact ⟨halive,inevitable_of_serving h halive⟩

theorem alive_of_no_panic {H : Handled → Prop} (hH : ∀ v, ¬ H (.panicked v))
    (hrun : run process.step acts (start clock (worker cfg registered job lease)) = some st)
    (hP : Along process.step (Allowed H) acts (start clock (worker cfg registered job lease))) :
    ended st = false := by
  refine Process.alive_of_returns (S := handlerSpec H) ?_ ?_ ?_ hP hrun
  · intro op g hg
    cases op with
    | go job =>
      rw [← Option.some.inj hg]
      exact returns_timed hH job
    | _ => cases hg
  · exact fun st i x op a s' hP hx => exec_handled hP hx
  · intro g hg
    rw [List.mem_singleton.mp hg]
    exact returns_worker cfg registered job lease H

end Containment

section Unregistered

-- the goroutine starts no other
def quietSpec : Spec Ans where
  pre _ op := match op with
    | .worker _ => True
    | _ => False
  ans _ _ := True

theorem meets_expand_quiet {α : Type} {cfg : WorkerConfig} {p : Worker.M α}
    {wtr : List (Interaction.Event Worker.Ans)}
    {post : List (Interaction.Event Worker.Ans) → Except GoError α → Prop} (tr : Trace)
    (h : Prog.Meets withoutHandler post wtr p) :
    Prog.Meets quietSpec (fun _ r => ∃ a, r = .ok a) tr (expand cfg p) := by
  induction p generalizing wtr tr with
  | ret a => exact ⟨_,rfl⟩
  | fail e => exact ⟨_,rfl⟩
  | call op k ih =>
    cases op with
    | executeHandler job => cases h.1
    | _ =>
      simp only [expand,Prog.meets_bind,Prog.meets_perform]
      exact ⟨trivial,fun a _ => ih a _ (h.2 a trivial)⟩

def Lone (st : State) : Prop :=
  ∃ p tr, st.goroutines = [p] ∧ Prog.Meets quietSpec (fun _ r => ∃ a, r = .ok a) tr p

theorem lone_step {st st' : State} {a : Act} (h : Lone st) (hs : process.step st a = some st') :
    Lone st' := by
  obtain ⟨p,tr,hone,hmeets⟩ := h
  obtain ⟨_,⟨i,x,op,k,ans,s',rfl,hg,hx,rfl⟩ | ⟨e,rfl,rfl⟩⟩ := Process.step_cases hs
  · cases i with
    | zero =>
      rw [hone] at hg
      cases hg
      refine ⟨k ans,_,?_,hmeets.2 ans trivial⟩
      rw [hone]
      cases op with
      | worker op => rfl
      | _ => exact hmeets.1.elim
    | succ i => simp [hone] at hg
  · exact ⟨p,tr,hone,hmeets⟩

theorem alive_of_lone {st : State} (h : Lone st) : ended st = false := by
  obtain ⟨p,tr,hone,hmeets⟩ := h
  rw [ended,hone,List.any_cons,List.any_nil,Bool.or_false]
  exact Process.not_panicking_of_returns ⟨tr,hmeets⟩

theorem lone_worker {cfg : WorkerConfig} {registered : String → Bool} {job : Job} (lease : Lease)
    (clock : Time) (h : registered (trimSpace job.name) = false) :
    Lone (start clock (worker cfg registered job lease)) := by
  refine ⟨_,[],rfl,?_⟩
  simp only [worker,Worker.process,h,Bool.false_eq_true,if_false,Prog.meets_bind,Prog.meets_pure]
  refine Prog.meets_mono ?_ (meets_expand_quiet [] (meets_handleFailure cfg job lease _ []))
  rintro tr r ⟨a,rfl⟩
  exact ⟨(),trivial⟩

end Unregistered

section Result

variable (cfg : WorkerConfig) (registered : String → Bool) (job : Job) (lease : Lease) (clock : Time)

def panicRun (v : PanicValue) : List Act :=
  [.exec 0 (.oracle someAnswer),.exec 0 .proceed,.exec 0 .proceed,.exec 1 (.handled (.panicked v))]

theorem ended_of_panicRun (v : PanicValue) (h : registered (trimSpace job.name) = true) :
    ∃ st, run process.step (panicRun v) (start clock (worker cfg registered job lease)) = some st ∧
      ended st = true := by
  have hworker : worker cfg registered job lease = worker cfg (fun _ => true) job lease := by
    simp only [worker,Worker.process,h]
  rw [hworker]
  exact ⟨_,rfl,rfl⟩

theorem allowed_panicRun {H : Handled → Prop} {v : PanicValue} (hv : H (.panicked v))
    (h : registered (trimSpace job.name) = true) :
    Along process.step (Allowed H) (panicRun v) (start clock (worker cfg registered job lease)) := by
  have hworker : worker cfg registered job lease = worker cfg (fun _ => true) job lease := by
    simp only [worker,Worker.process,h]
  rw [hworker]
  exact ⟨trivial,trivial,trivial,hv,trivial⟩

theorem handler_contained_iff (H : Handled → Prop) :
    (∀ acts st, run process.step acts (start clock (worker cfg registered job lease)) = some st →
      Along process.step (Allowed H) acts (start clock (worker cfg registered job lease)) →
        Contained st) ↔
    registered (trimSpace job.name) = false ∨ ∀ v, ¬ H (.panicked v) := by
  constructor
  · intro hall
    cases hreg : registered (trimSpace job.name) with
    | false => exact .inl rfl
    | true =>
      right
      intro v hv
      obtain ⟨st,hrun,hended⟩ := ended_of_panicRun cfg registered job lease clock v hreg
      have hcontained := hall _ st hrun (allowed_panicRun cfg registered job lease clock hv hreg)
      rw [hcontained.1] at hended
      cases hended
  · rintro (hreg | hH) acts st hrun hP
    · apply contained_of_alive hrun
      apply alive_of_lone
      exact run_reaches (fun _ _ _ h hs => lone_step h hs) (lone_worker lease clock hreg) hrun
    · exact contained_of_alive hrun (alive_of_no_panic hH hrun hP)

theorem panicking_mail_ends_process : ∃ st,
    run process.step (panicRun ⟨"boom"⟩) (start 0 (worker Worker.plainWorker.normalize
      (fun _ => true) (Worker.mailAt 0 3) ⟨"j1","a1","q",0,0⟩)) = some st ∧
    Along process.step (Allowed fun r => r = .panicked ⟨"boom"⟩) (panicRun ⟨"boom"⟩)
      (start 0 (worker Worker.plainWorker.normalize (fun _ => true) (Worker.mailAt 0 3)
        ⟨"j1","a1","q",0,0⟩)) ∧
    ended st = true ∧ ¬ Contained st := by
  obtain ⟨st,hrun,hended⟩ := ended_of_panicRun Worker.plainWorker.normalize (fun _ => true)
    (Worker.mailAt 0 3) ⟨"j1","a1","q",0,0⟩ 0 ⟨"boom"⟩ rfl
  refine ⟨st,hrun,allowed_panicRun _ _ _ _ _ rfl rfl,hended,fun hcontained => ?_⟩
  rw [hcontained.1] at hended
  cases hended

end Result

end Nimburion.Jobs.HandlerPanic
