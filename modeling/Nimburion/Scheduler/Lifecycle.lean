import Nimburion.Lib.Transition
import Nimburion.Scheduler.Runtime
import Mathlib.Data.Finmap

namespace Nimburion.Scheduler.Lifecycle
open Interaction GoText GoTime Transition

def errConflict : GoError := .text "scheduler conflict"

def errNotFound : GoError := .text "scheduler not found"

def errInvalidArgument : GoError := .text "scheduler invalid argument"

-- normalize and the check of the policy as the caller wrote it
def misfirePolicy (raw : String) : Except GoError MisfirePolicy :=
  if trimSpace raw = "" then .ok .skip
  else if raw = "skip" then .ok .skip
  else if raw = "fire_once" then .ok .fireOnce
  else .error (schedulerError errValidation ("invalid task misfire policy " ++ quote raw))

def required (value field : String) : Except GoError Unit :=
  if trimSpace value = "" then .error (schedulerError errValidation ("task " ++ field ++ " is required"))
  else .ok ()

-- none is a schedule whose parsing never ends
def validate (lib : Library) (task : Task) (policy : String) (now : Time) :
    ExceptT GoError Option Task := do
  ExceptT.mk (some (required task.name "name"))
  ExceptT.mk (some (required task.schedule "schedule"))
  ExceptT.mk (some (required task.queue "queue"))
  ExceptT.mk (some (required task.jobName "job_name"))
  let misfire ← ExceptT.mk (some (misfirePolicy policy))
  let _ ← ExceptT.mk (task.nextRun lib now)
  pure { task with misfirePolicy := misfire }

-- a CancelFunc is the number of the Start that made it; `waiting` are the Starts at
-- <-runningCtx.Done()
structure Runtime where
  tasks : Finmap fun _ : String => Task
  running : Bool
  cancel : Option ℕ
  starts : ℕ
  waiting : List ℕ

def newRuntime : Runtime := ⟨∅,false,none,0,[]⟩

namespace Runtime

variable (r : Runtime)

def register (lib : Library) (task : Task) (policy : String) (now : Time) :
    ExceptT GoError Option Runtime := do
  let task ← validate lib task policy now
  if task.name ∈ r.tasks then
    throw (schedulerError errConflict ("task " ++ quote task.name ++ " is already registered"))
  else pure { r with tasks := r.tasks.insert task.name task }

def trigger (cfg : RuntimeConfig) (hasContext : Bool) (taskName : String) : M Unit :=
  if hasContext then
    let name := trimSpace taskName
    if name = "" then Prog.fail (schedulerError errInvalidArgument "task name is required")
    else match r.tasks.lookup name with
    | none => Prog.fail (schedulerError errNotFound ("task " ++ quote name ++ " is not registered"))
    | some task => do
        let now ← Prog.perform Op.now
        dispatchTask cfg task now now
  else Prog.fail (schedulerError errInvalidArgument "context is required")

-- what Start returns with before it waits for its context
def start (hasContext : Bool) : Option GoError × Runtime :=
  if hasContext then
    if r.running then (some (schedulerError errConflict "scheduler already running"),r)
    else
      let r := { r with cancel := some r.starts, running := true, starts := r.starts+1 }
      if r.tasks.keys.card = 0 then
        (some (schedulerError errValidation "no scheduler tasks registered"),r)
      else (none,{ r with waiting := (r.starts-1) :: r.waiting })
  else (some (schedulerError errInvalidArgument "context is required"),r)

def stop : Runtime :=
  if r.running then { r with cancel := none, running := false } else r

end Runtime

inductive Call where
  | register (task : Task) (policy : String) (now : Time)
  | trigger (hasContext : Bool) (taskName : String)
  | start (hasContext : Bool)
  | startDone (i : ℕ)
  | stop

-- `accepted` are the names of the tasks Register returned nil for
structure Session where
  runtime : Runtime
  accepted : List String

def opened : Session := ⟨newRuntime,[]⟩

def step (lib : Library) (s : Session) : Call → Option Session
  | .register task policy now => match s.runtime.register lib task policy now with
      | none => none
      | some (.error _) => some s
      | some (.ok r) => some ⟨r,task.name :: s.accepted⟩
  | .trigger _ _ => some s
  | .start hasContext => some { s with runtime := (s.runtime.start hasContext).2 }
  | .startDone i =>
      if i ∈ s.runtime.waiting then
        some { s with runtime := { s.runtime with waiting := s.runtime.waiting.erase i }.stop }
      else none
  | .stop => some { s with runtime := s.runtime.stop }

def NotFound (p : M Unit) : Prop := ∃ message, p = .fail (schedulerError errNotFound message)

structure Intact (lib : Library) (cfg : RuntimeConfig) (s : Session) (c : Call) : Prop where
  start : ∀ hasContext e, c = .start hasContext → (s.runtime.start hasContext).1 = some e →
    (s.runtime.start hasContext).2.running = s.runtime.running ∧
      (s.runtime.start hasContext).2.cancel = s.runtime.cancel
  trigger : ∀ s', step lib s c = some s' → ∀ name ∈ s'.accepted,
    ¬ NotFound (s'.runtime.trigger cfg true name)

-- no Start finds the scheduler stopped and without tasks, and no name is stored that its trimmed
-- form does not find
def Guarded (lib : Library) (s : Session) : Call → Prop
  | .start hasContext => hasContext = true → s.runtime.running = false → s.runtime.tasks.keys.card ≠ 0
  | .register task policy now => ∀ r, s.runtime.register lib task policy now = some (.ok r) →
      trimSpace task.name = task.name ∨ trimSpace task.name ∈ s.runtime.tasks
  | _ => True

structure Known (s : Session) : Prop where
  named : ∀ name ∈ s.accepted, trimSpace name ≠ ""
  found : ∀ name ∈ s.accepted, trimSpace name ∈ s.runtime.tasks

section Calls

variable {lib : Library} {cfg : RuntimeConfig} {s s' : Session}

theorem bind_ok {α β : Type} {x : ExceptT GoError Option α} {f : α → ExceptT GoError Option β} {b : β}
    (h : (x >>= f : ExceptT GoError Option β) = some (.ok b)) :
    ∃ a, x = some (.ok a) ∧ f a = some (.ok b) := by
  have hbind : (x >>= f : ExceptT GoError Option β) = Option.bind x (ExceptT.bindCont f) := rfl
  rw [hbind] at h
  obtain ⟨ra,hra,hcont⟩ := Option.bind_eq_some_iff.mp h
  cases ra with
  | ok a => exact ⟨a,hra,hcont⟩
  | error e => cases hcont

theorem validate_ok {task task' : Task} {policy : String} {now : Time}
    (h : validate lib task policy now = some (.ok task')) :
    trimSpace task.name ≠ "" ∧ task'.name = task.name := by
  obtain ⟨_,hname,h⟩ := bind_ok h
  obtain ⟨_,_,h⟩ := bind_ok h
  obtain ⟨_,_,h⟩ := bind_ok h
  obtain ⟨_,_,h⟩ := bind_ok h
  obtain ⟨misfire,_,h⟩ := bind_ok h
  obtain ⟨_,_,h⟩ := bind_ok h
  constructor
  · intro hblank
    have hrequired : required task.name "name" = .ok () := Option.some.inj hname
    simp [required,hblank] at hrequired
  · have htask : { task with misfirePolicy := misfire } = task' := Except.ok.inj (Option.some.inj h)
    rw [← htask]

theorem register_ok {r r' : Runtime} {task : Task} {policy : String} {now : Time}
    (h : r.register lib task policy now = some (.ok r')) :
    trimSpace task.name ≠ "" ∧ ∀ name, name ∈ r'.tasks ↔ name = task.name ∨ name ∈ r.tasks := by
  obtain ⟨task',hvalid,h⟩ := bind_ok h
  obtain ⟨hname,hsame⟩ := validate_ok hvalid
  refine ⟨hname,fun name => ?_⟩
  by_cases hmem : task'.name ∈ r.tasks
  · rw [if_pos hmem] at h
    cases h
  · rw [if_neg hmem] at h
    have hr : { r with tasks := r.tasks.insert task'.name task' } = r' :=
      Except.ok.inj (Option.some.inj h)
    rw [← hr,← hsame]
    exact Finmap.mem_insert

theorem notFound_iff {r : Runtime} {name : String} (hname : trimSpace name ≠ "") :
    NotFound (r.trigger cfg true name) ↔ trimSpace name ∉ r.tasks := by
  simp only [Runtime.trigger,if_true,if_neg hname]
  cases hlookup : r.tasks.lookup (trimSpace name) with
  | none => exact iff_of_true ⟨_,rfl⟩ (Finmap.lookup_eq_none.mp hlookup)
  | some task =>
    refine iff_of_false ?_ (not_not.mpr (Finmap.mem_of_lookup_eq_some hlookup))
    rintro ⟨message,hfail⟩
    cases hfail

theorem start_tasks (r : Runtime) (hasContext : Bool) :
    (r.start hasContext).2.tasks = r.tasks := by
  simp only [Runtime.start]
  split
  · split
    · rfl
    · split <;> rfl
  · rfl

theorem stop_tasks (r : Runtime) : r.stop.tasks = r.tasks := by
  simp only [Runtime.stop]
  split <;> rfl

-- what one call can do to the names that are registered
theorem step_cases {c : Call} (h : step lib s c = some s') :
    (s'.accepted = s.accepted ∧ s'.runtime.tasks = s.runtime.tasks ∧
      ∀ task policy now r, c = .register task policy now →
        s.runtime.register lib task policy now ≠ some (.ok r)) ∨
    ∃ task policy now r, c = .register task policy now ∧
      s.runtime.register lib task policy now = some (.ok r) ∧ s' = ⟨r,task.name :: s.accepted⟩ := by
  cases c with
  | register task policy now =>
    simp only [step] at h
    cases hreg : s.runtime.register lib task policy now with
    | none => simp [hreg] at h
    | some result =>
      cases result with
      | error e =>
        simp only [hreg,Option.some.injEq] at h
        subst h
        refine .inl ⟨rfl,rfl,?_⟩
        rintro task' policy' now' r heq
        cases heq
        rw [hreg]
        exact nofun
      | ok r =>
        simp only [hreg,Option.some.injEq] at h
        exact .inr ⟨task,policy,now,r,rfl,hreg,h.symm⟩
  | trigger hasContext taskName =>
    simp only [step,Option.some.injEq] at h
    exact .inl ⟨by rw [← h],by rw [← h],fun _ _ _ _ heq => absurd heq (by simp)⟩
  | start hasContext =>
    simp only [step,Option.some.injEq] at h
    exact .inl ⟨by rw [← h],by rw [← h]; exact start_tasks _ _,fun _ _ _ _ heq => absurd heq (by simp)⟩
  | startDone i =>
    simp only [step,Option.ite_none_right_eq_some,Option.some.injEq] at h
    exact .inl ⟨by rw [← h.2],by rw [← h.2]; exact stop_tasks _,fun _ _ _ _ heq => absurd heq (by simp)⟩
  | stop =>
    simp only [step,Option.some.injEq] at h
    exact .inl ⟨by rw [← h],by rw [← h]; exact stop_tasks _,fun _ _ _ _ heq => absurd heq (by simp)⟩

theorem start_intact_iff (r : Runtime) (hasContext : Bool) :
    (∀ e, (r.start hasContext).1 = some e →
      (r.start hasContext).2.running = r.running ∧ (r.start hasContext).2.cancel = r.cancel) ↔
    (hasContext = true → r.running = false → r.tasks.keys.card ≠ 0) := by
  cases hasContext with
  | false => exact iff_of_true (fun _ _ => ⟨rfl,rfl⟩) nofun
  | true =>
    cases hrunning : r.running with
    | true => exact iff_of_true (by simp [Runtime.start,hrunning]) nofun
    | false =>
      by_cases hempty : r.tasks.keys.card = 0
      · refine iff_of_false (fun h => ?_) fun h => h rfl rfl hempty
        simp [Runtime.start,hrunning,hempty] at h
      · refine iff_of_true (fun e he => ?_) fun _ _ => hempty
        simp [Runtime.start,hrunning,hempty] at he

theorem guarded_register_iff {task : Task} {policy : String} {now : Time} {r : Runtime}
    (hknown : Known s) (hreg : s.runtime.register lib task policy now = some (.ok r)) :
    Known ⟨r,task.name :: s.accepted⟩ ↔
      trimSpace task.name = task.name ∨ trimSpace task.name ∈ s.runtime.tasks := by
  obtain ⟨hname,htasks⟩ := register_ok hreg
  constructor
  · intro h
    exact (htasks _).mp (h.found task.name List.mem_cons_self)
  · intro hguard
    refine ⟨fun name hmem => ?_,fun name hmem => (htasks _).mpr ?_⟩
    · obtain rfl | hmem := List.mem_cons.mp hmem
      · exact hname
      · exact hknown.named name hmem
    · obtain rfl | hmem := List.mem_cons.mp hmem
      · exact hguard
      · exact .inr (hknown.found name hmem)

theorem Known.triggers (h : Known s) : ∀ name ∈ s.accepted,
    ¬ NotFound (s.runtime.trigger cfg true name) := by
  intro name hmem hnot
  exact (notFound_iff (h.named name hmem)).mp hnot (h.found name hmem)

theorem known_same (h : Known s) (haccepted : s'.accepted = s.accepted)
    (htasks : s'.runtime.tasks = s.runtime.tasks) : Known s' := by
  refine ⟨fun name hmem => h.named name (haccepted ▸ hmem),fun name hmem => ?_⟩
  rw [htasks]
  exact h.found name (haccepted ▸ hmem)

theorem known_step {c : Call} (h : Known s) (hguard : Guarded lib s c) (hs : step lib s c = some s') :
    Known s' := by
  obtain ⟨haccepted,htasks,_⟩ | ⟨task,policy,now,r,rfl,hreg,rfl⟩ := step_cases hs
  · exact known_same h haccepted htasks
  · exact (guarded_register_iff h hreg).mpr (hguard r hreg)

theorem intact_iff_guarded (cfg : RuntimeConfig) (h : Known s) (c : Call) :
    Intact lib cfg s c ↔ Guarded lib s c := by
  constructor
  · intro hintact
    cases c with
    | start hasContext =>
      exact (start_intact_iff s.runtime hasContext).mp fun e => hintact.start hasContext e rfl
    | register task policy now =>
      intro r hreg
      have hstep : step lib s (.register task policy now) = some ⟨r,task.name :: s.accepted⟩ := by
        simp only [step,hreg]
      obtain ⟨hname,htasks⟩ := register_ok hreg
      have hfound := hintact.trigger _ hstep task.name List.mem_cons_self
      rw [notFound_iff hname,not_not] at hfound
      exact (htasks _).mp hfound
    | trigger hasContext taskName => trivial
    | startDone i => trivial
    | stop => trivial
  · intro hguard
    refine ⟨?_,fun s' hs => (known_step h hguard hs).triggers⟩
    rintro hasContext e rfl
    exact (start_intact_iff s.runtime hasContext).mpr hguard e

end Calls

theorem known_opened : Known opened :=
  ⟨fun _ h => absurd h List.not_mem_nil,fun _ h => absurd h List.not_mem_nil⟩

theorem lifecycle_intact_iff (lib : Library) (cfg : RuntimeConfig) (calls : List Call) :
    Along (step lib) (Intact lib cfg) calls opened ↔ Along (step lib) (Guarded lib) calls opened :=
  along_congr (fun _ c h => intact_iff_guarded cfg h c)
    (fun _ _ _ h hguard hs => known_step h hguard hs) known_opened

def everyMinute : Library := ⟨fun _ => .error (.text "unknown time zone"),fun _ => .ok minute⟩

def nightly : Task := ⟨" nightly ","@every 1m","reports","build",[],∅,"","","",0,.skip⟩

def registers (r : Runtime) (task : Task) : Bool :=
  match r.register everyMinute task "" 0 with
  | some (.ok _) => true
  | _ => false

theorem register_of_registers {r : Runtime} {task : Task} (h : registers r task = true) :
    ∃ r', r.register everyMinute task "" 0 = some (.ok r') := by
  unfold registers at h
  split at h
  · rename_i r' hreg
    exact ⟨r',hreg⟩
  · cases h

theorem empty_start_runs_and_padded_name_is_lost :
    (newRuntime.start true).1 =
      some (schedulerError errValidation "no scheduler tasks registered") ∧
    ((newRuntime.start true).2.start true).1 =
      some (schedulerError errConflict "scheduler already running") ∧
    ¬ Along (step everyMinute) (Intact everyMinute ⟨0⟩) [.start true] opened ∧
    ¬ Along (step everyMinute) (Intact everyMinute ⟨0⟩) [.register nightly "" 0] opened := by
  refine ⟨rfl,rfl,fun h => ?_,fun h => ?_⟩
  · exact (intact_iff_guarded ⟨0⟩ known_opened _).mp h.1 rfl rfl rfl
  · obtain ⟨r,hreg⟩ := register_of_registers
      (show registers newRuntime nightly = true by decide +kernel)
    obtain htrim | hmem := (intact_iff_guarded ⟨0⟩ known_opened _).mp h.1 r hreg
    · exact absurd htrim (by decide +kernel)
    · exact Finmap.notMem_empty hmem

end Nimburion.Scheduler.Lifecycle
