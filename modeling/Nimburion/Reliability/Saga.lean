import Nimburion.Errors
import Nimburion.Lib.Decimal
import Nimburion.Lib.GoText
import Nimburion.Lib.GoTime
import Nimburion.Lib.Interaction
import Mathlib.Data.List.Nodup

namespace Nimburion.Reliability.Saga
open Interaction GoText GoTime

section Model

-- `empty` is the zero value of the string type
inductive Status where
  | empty
  | pending
  | running
  | completed
  | compensating
  | compensated
  | failed
  deriving DecidableEq, Repr

-- which of the two functions are set; what they answer is the world's part
structure Step where
  name : String
  executes : Bool
  compensates : Bool
  deriving DecidableEq, Repr

def Step.validate (s : Step) : Except GoError Unit :=
  if s.name = "" then .error (.text "saga step name is required")
  else if !s.executes then .error (.text "saga step execute is required")
  else .ok ()

structure Definition where
  name : String
  steps : List Step
  deriving DecidableEq, Repr

def validateSteps (seen : List String) (idx : ℕ) : List Step → Except GoError Unit
  | [] => .ok ()
  | step :: steps => match step.validate with
      | .error e => .error (.wrapped ("saga step " ++ toString idx ++ ": ") e)
      | .ok _ =>
          if step.name ∈ seen then .error (.text ("duplicate saga step " ++ quote step.name))
          else validateSteps (step.name :: seen) (idx+1) steps

def Definition.validate (d : Definition) : Except GoError Unit :=
  if d.name = "" then .error (.text "saga name is required")
  else if d.steps = [] then .error (.text "saga must have at least one step")
  else validateSteps [] 0 d.steps

structure Notification where
  sagaName : String
  stepName : String
  status : Status
  occurredAt : Time
  error : String
  deriving DecidableEq

structure Result where
  status : Status
  completedSteps : List String
  compensated : List String
  deriving DecidableEq, Repr

structure Runner where
  definition : Definition
  observed : Bool
  valid : definition.validate = .ok ()

inductive Op where
  | execute (name : String)
  | compensate (name : String)
  | now
  | onEvent (event : Notification)

abbrev Ans : Op → Type
  | .execute _ => Option GoError
  | .compensate _ => Option GoError
  | .now => Time
  | .onEvent _ => Option GoError

abbrev M := Prog Op Ans Empty

variable (r : Runner)

def emit (stepName : String) (status : Status) (err : Option GoError) : M Unit :=
  if r.observed then do
    let now ← Prog.perform Op.now
    let _ ← Prog.perform (Op.onEvent ⟨r.definition.name,stepName,status,now,err.elim "" (·.message)⟩)
    pure ()
  else pure ()

-- the completed steps from the last one back
def compensate (step : Step) (err : GoError) (result : Result) :
    List Step → M (Result × Option GoError)
  | [] => do
      emit r step.name .compensated (some err)
      pure ({ result with status := .compensated },some err)
  | done :: rest =>
      if !done.compensates then compensate step err result rest
      else do
        let compErr ← Prog.perform (Op.compensate done.name)
        match compErr with
        | some e => do
            emit r done.name .failed (some e)
            pure (result,some (err.join e))
        | none =>
            compensate step err { result with compensated := result.compensated ++ [done.name] } rest

def runSteps (completed : List Step) (result : Result) : List Step → M (Result × Option GoError)
  | [] => do
      emit r "" .completed none
      pure ({ result with status := .completed },none)
  | step :: steps => do
      let err ← Prog.perform (Op.execute step.name)
      match err with
      | some e => do
          emit r step.name .failed (some e)
          emit r step.name .compensating (some e)
          compensate r step e { result with status := .compensating } completed.reverse
      | none => do
          emit r step.name .running none
          runSteps (completed ++ [step])
            { result with completedSteps := result.completedSteps ++ [step.name] } steps

def run (ctx : Option Unit) : M (Result × Option GoError) :=
  match ctx with
  | none => pure (⟨.empty,[],[]⟩,some (.text "context is required"))
  | some _ => do
      emit r "" .running none
      runSteps r [] ⟨.running,[],[]⟩ r.definition.steps

end Model

abbrev Trace := List (Event Ans)

structure World where
  execute : String → Option GoError
  compensate : String → Option GoError
  now : Trace → Time
  onEvent : Trace → Notification → Option GoError

def World.answer (w : World) (tr : Trace) : (op : Op) → Ans op
  | .execute name => w.execute name
  | .compensate name => w.compensate name
  | .now => w.now tr
  | .onEvent event => w.onEvent tr event

def World.eval (w : World) {α : Type} (p : M α) (tr : Trace) : Except Empty α × Trace :=
  Prog.eval (Prog.observe w.answer) p tr

-- the calls of the steps' functions, the first one first
inductive Call where
  | execute (name : String) (err : Option GoError)
  | compensate (name : String) (err : Option GoError)
  deriving DecidableEq

def Call.of : Event Ans → Option Call
  | ⟨.execute name,err⟩ => some (.execute name err)
  | ⟨.compensate name,err⟩ => some (.compensate name err)
  | _ => none

def calls (tr : Trace) : List Call := (tr.filterMap Call.of).reverse

section Claim

variable (w : World)

-- the steps before the first one whose Execute fails
def World.done (steps : List Step) : List Step := steps.takeWhile fun s => (w.execute s.name).isNone

def World.failing (steps : List Step) : Option Step := steps.find? fun s => (w.execute s.name).isSome

def undone (steps : List Step) : List Step := (steps.filter (·.compensates)).reverse

structure Compensated (steps : List Step) (result : Result) (err : Option GoError) (tr : Trace) :
    Prop where
  trace : calls tr =
    (w.done steps ++ (w.failing steps).toList).map (fun s => .execute s.name (w.execute s.name)) ++
    if (w.failing steps).isSome then
      (undone (w.done steps)).map fun s => .compensate s.name (w.compensate s.name) else []
  once : ((w.done steps ++ (w.failing steps).toList).map Step.name).Nodup
  completedSteps : result.completedSteps = (w.done steps).map Step.name
  compensated : result.compensated = if (w.failing steps).isSome then
    ((undone (w.done steps)).filter fun s => (w.compensate s.name).isNone).map Step.name else []
  terminal : result.status = .completed ∨ result.status = .compensated ∨ result.status = .failed
  completed_iff : result.status = .completed ↔ err = none
  compensated_iff : err ≠ none →
    (result.status = .compensated ↔ ∀ s ∈ undone (w.done steps), w.compensate s.name = none)

def World.reversible (steps : List Step) : Bool :=
  (w.failing steps).isNone ||
    (w.done steps).all fun s => !s.compensates || (w.compensate s.name).isNone

end Claim

section Running

variable {r : Runner} {w : World}

theorem calls_cons (ev : Event Ans) (tr : Trace) :
    calls (ev :: tr) = calls tr ++ (Call.of ev).toList := by
  unfold calls
  cases hev : Call.of ev <;> simp [hev]

theorem eval_perform_bind {α : Type} (op : Op) (f : Ans op → M α) (tr : Trace) :
    w.eval (Prog.perform op >>= f) tr = w.eval (f (w.answer tr op)) (⟨op,w.answer tr op⟩ :: tr) := rfl

@[simp] theorem eval_pure {α : Type} (a : α) (tr : Trace) :
    w.eval (pure a : M α) tr = (.ok a,tr) := rfl

theorem eval_emit (stepName : String) (status : Status) (err : Option GoError) (tr : Trace) :
    ∃ tr', w.eval (emit r stepName status err) tr = (.ok (),tr') ∧ calls tr' = calls tr := by
  unfold emit
  split_ifs
  · refine ⟨⟨.onEvent _,_⟩ :: ⟨.now,_⟩ :: tr,rfl,?_⟩
    simp [calls_cons,Call.of]
  · exact ⟨tr,rfl,rfl⟩

theorem eval_emit_bind {α : Type} (stepName : String) (status : Status) (err : Option GoError)
    (p : M α) (tr : Trace) : ∃ tr', w.eval (do emit r stepName status err; p) tr = w.eval p tr' ∧
      calls tr' = calls tr := by
  obtain ⟨tr',heval,hcalls⟩ := eval_emit (r := r) (w := w) stepName status err tr
  refine ⟨tr',?_,hcalls⟩
  unfold World.eval at heval ⊢
  rw [Prog.eval_bind,heval]

theorem eval_compensate_call (step : Step) (err : GoError) (result : Result) {done : Step}
    (hdone : done.compensates = true) (rest : List Step) (tr : Trace) :
    w.eval (compensate r step err result (done :: rest)) tr =
      w.eval (match w.compensate done.name with
        | some e => do
            emit r done.name .failed (some e)
            pure (result,some (err.join e))
        | none =>
            compensate r step err { result with compensated := result.compensated ++ [done.name] }
              rest) (⟨.compensate done.name,w.compensate done.name⟩ :: tr) := by
  rw [compensate,hdone,if_neg (by simp),eval_perform_bind]
  simp only [World.answer]
  cases w.compensate done.name <;> rfl

theorem eval_compensate (step : Step) (err : GoError) (result : Result) {rest : List Step}
    (hok : ∀ s ∈ rest, s.compensates = true → w.compensate s.name = none) (tr : Trace) :
    ∃ tr', w.eval (compensate r step err result rest) tr =
      (.ok ({ result with
        status := .compensated
        compensated := result.compensated ++ (rest.filter (·.compensates)).map Step.name },
        some err),tr') ∧
      calls tr' = calls tr ++
        (rest.filter (·.compensates)).map fun s => Call.compensate s.name (w.compensate s.name) := by
  induction rest generalizing result tr with
  | nil =>
    obtain ⟨tr',heval,hcalls⟩ := eval_emit_bind (r := r) (w := w) step.name .compensated (some err)
      (pure ({ result with status := .compensated },some err)) tr
    refine ⟨tr',?_,by simpa using hcalls⟩
    simpa [compensate] using heval
  | cons done rest ih =>
    have hrest : ∀ s ∈ rest, s.compensates = true → w.compensate s.name = none :=
      fun s hs => hok s (List.mem_cons_of_mem _ hs)
    cases hdone : done.compensates with
    | false =>
      obtain ⟨tr',heval,hcalls⟩ := ih result hrest tr
      refine ⟨tr',?_,by simpa [hdone] using hcalls⟩
      rw [compensate,hdone]
      simpa [hdone] using heval
    | true =>
      have hnone := hok done List.mem_cons_self hdone
      obtain ⟨tr',heval,hcalls⟩ := ih
        { result with compensated := result.compensated ++ [done.name] } hrest
        (⟨.compensate done.name,none⟩ :: tr)
      refine ⟨tr',?_,?_⟩
      · rw [eval_compensate_call step err result hdone,hnone]
        simpa [hdone] using heval
      · simpa [hdone,hnone,calls_cons,Call.of] using hcalls

theorem eval_compensate_failed (step : Step) (err : GoError) (result : Result) {rest : List Step}
    (hfail : ∃ s ∈ rest, s.compensates = true ∧ w.compensate s.name ≠ none) (tr : Trace) :
    ∃ res e tr', w.eval (compensate r step err result rest) tr = (.ok (res,e),tr') ∧
      res.status = result.status := by
  induction rest generalizing result tr with
  | nil =>
    obtain ⟨s,hs,_⟩ := hfail
    cases hs
  | cons done rest ih =>
    cases hdone : done.compensates with
    | false =>
      have hrest : ∃ s ∈ rest, s.compensates = true ∧ w.compensate s.name ≠ none := by
        obtain ⟨s,hs,hcomp,hne⟩ := hfail
        rcases List.mem_cons.mp hs with rfl | hs
        · rw [hdone] at hcomp
          cases hcomp
        · exact ⟨s,hs,hcomp,hne⟩
      rw [compensate,hdone]
      exact ih result hrest tr
    | true =>
      rw [eval_compensate_call step err result hdone]
      cases hcomp : w.compensate done.name with
      | some e =>
        obtain ⟨tr',heval,_⟩ := eval_emit_bind (r := r) (w := w) done.name .failed (some e)
          (pure (result,some (err.join e))) (⟨.compensate done.name,some e⟩ :: tr)
        exact ⟨result,_,tr',heval,rfl⟩
      | none =>
        have hrest : ∃ s ∈ rest, s.compensates = true ∧ w.compensate s.name ≠ none := by
          obtain ⟨s,hs,hc,hne⟩ := hfail
          rcases List.mem_cons.mp hs with rfl | hs
          · exact absurd hcomp hne
          · exact ⟨s,hs,hc,hne⟩
        obtain ⟨res,e,tr',heval,hstatus⟩ := ih
          { result with compensated := result.compensated ++ [done.name] } hrest
          (⟨.compensate done.name,none⟩ :: tr)
        exact ⟨res,e,tr',heval,hstatus⟩

theorem done_cons_ok {step : Step} (h : w.execute step.name = none) (steps : List Step) :
    w.done (step :: steps) = step :: w.done steps ∧ w.failing (step :: steps) = w.failing steps := by
  simp [World.done,World.failing,h]

theorem done_cons_failed {step : Step} {e : GoError} (h : w.execute step.name = some e)
    (steps : List Step) : w.done (step :: steps) = [] ∧ w.failing (step :: steps) = some step := by
  simp [World.done,World.failing,h]

theorem filter_reverse_undone (steps : List Step) :
    steps.reverse.filter (·.compensates) = undone steps := List.filter_reverse

theorem eval_runSteps_ok (completed : List Step) (result : Result) {step : Step}
    (h : w.execute step.name = none) (steps : List Step) (tr : Trace) :
    ∃ tr', w.eval (runSteps r completed result (step :: steps)) tr =
      w.eval (runSteps r (completed ++ [step])
        { result with completedSteps := result.completedSteps ++ [step.name] } steps) tr' ∧
      calls tr' = calls tr ++ [Call.execute step.name none] := by
  obtain ⟨tr',heval,hcalls⟩ := eval_emit_bind (r := r) (w := w) step.name .running none
    (runSteps r (completed ++ [step])
      { result with completedSteps := result.completedSteps ++ [step.name] } steps)
    (⟨.execute step.name,none⟩ :: tr)
  refine ⟨tr',?_,by rw [hcalls,calls_cons]; rfl⟩
  rw [runSteps,eval_perform_bind]
  simp only [World.answer,h]
  exact heval

theorem eval_runSteps_failed (completed : List Step) (result : Result) {step : Step} {e : GoError}
    (h : w.execute step.name = some e) (steps : List Step) (tr : Trace) :
    ∃ tr', w.eval (runSteps r completed result (step :: steps)) tr =
      w.eval (compensate r step e { result with status := .compensating } completed.reverse) tr' ∧
      calls tr' = calls tr ++ [Call.execute step.name (some e)] := by
  obtain ⟨tr₂,heval₂,hcalls₂⟩ := eval_emit_bind (r := r) (w := w) step.name .failed (some e)
    (do
      emit r step.name .compensating (some e)
      compensate r step e { result with status := .compensating } completed.reverse)
    (⟨.execute step.name,some e⟩ :: tr)
  obtain ⟨tr',heval,hcalls⟩ := eval_emit_bind (r := r) (w := w) step.name .compensating (some e)
    (compensate r step e { result with status := .compensating } completed.reverse) tr₂
  refine ⟨tr',?_,by rw [hcalls,hcalls₂,calls_cons]; rfl⟩
  rw [runSteps,eval_perform_bind]
  simp only [World.answer,h]
  exact heval₂.trans heval

theorem eval_runSteps_completed (completed : List Step) (result : Result) {steps : List Step}
    (h : w.failing steps = none) (tr : Trace) :
    ∃ tr', w.eval (runSteps r completed result steps) tr = (.ok ({ result with
        status := .completed
        completedSteps := result.completedSteps ++ (w.done steps).map Step.name },none),tr') ∧
      calls tr' = calls tr ++
        (w.done steps).map fun s => Call.execute s.name (w.execute s.name) := by
  induction steps generalizing completed result tr with
  | nil =>
    obtain ⟨tr',heval,hcalls⟩ := eval_emit_bind (r := r) (w := w) "" .completed none
      (pure ({ result with status := .completed },none)) tr
    refine ⟨tr',?_,by simpa [World.done] using hcalls⟩
    simpa [runSteps,World.done] using heval
  | cons step steps ih =>
    cases hstep : w.execute step.name with
    | some e =>
      rw [(done_cons_failed hstep steps).2] at h
      cases h
    | none =>
      obtain ⟨hdone,hfailing⟩ := done_cons_ok hstep steps
      rw [hfailing] at h
      obtain ⟨tr₁,heval₁,hcalls₁⟩ := eval_runSteps_ok (r := r) completed result hstep steps tr
      obtain ⟨tr',heval,hcalls⟩ := ih (completed ++ [step])
        { result with completedSteps := result.completedSteps ++ [step.name] } h tr₁
      refine ⟨tr',?_,?_⟩
      · rw [heval₁,heval,hdone]
        simp
      · rw [hcalls,hcalls₁,hdone]
        simp [hstep]

theorem eval_runSteps_compensates (completed : List Step) (result : Result) {steps : List Step}
    {s : Step} (h : w.failing steps = some s)
    (hok : ∀ s ∈ completed ++ w.done steps, s.compensates = true → w.compensate s.name = none)
    (tr : Trace) :
    ∃ tr', w.eval (runSteps r completed result steps) tr = (.ok ({
        status := .compensated
        completedSteps := result.completedSteps ++ (w.done steps).map Step.name
        compensated := result.compensated ++
          (undone (completed ++ w.done steps)).map Step.name },w.execute s.name),tr') ∧
      calls tr' = calls tr ++
        (w.done steps ++ [s]).map (fun s => Call.execute s.name (w.execute s.name)) ++
        (undone (completed ++ w.done steps)).map fun s =>
          Call.compensate s.name (w.compensate s.name) := by
  induction steps generalizing completed result tr with
  | nil => cases h
  | cons step steps ih =>
    cases hstep : w.execute step.name with
    | some e =>
      obtain ⟨hdone,hfailing⟩ := done_cons_failed hstep steps
      rw [hfailing,Option.some.injEq] at h
      subst h
      rw [hdone,List.append_nil] at hok ⊢
      obtain ⟨tr₁,heval₁,hcalls₁⟩ := eval_runSteps_failed (r := r) completed result hstep steps tr
      obtain ⟨tr',heval,hcalls⟩ := eval_compensate (r := r) step e
        { result with status := .compensating }
        (fun s hs => hok s (List.mem_reverse.mp hs)) tr₁
      refine ⟨tr',?_,?_⟩
      · rw [heval₁,heval,filter_reverse_undone]
        simp [hstep]
      · rw [hcalls,hcalls₁,filter_reverse_undone]
        simp [hstep]
    | none =>
      obtain ⟨hdone,hfailing⟩ := done_cons_ok hstep steps
      rw [hfailing] at h
      rw [hdone,List.append_cons completed] at hok ⊢
      obtain ⟨tr₁,heval₁,hcalls₁⟩ := eval_runSteps_ok (r := r) completed result hstep steps tr
      obtain ⟨tr',heval,hcalls⟩ := ih (completed ++ [step])
        { result with completedSteps := result.completedSteps ++ [step.name] } h
        (by simpa using hok) tr₁
      refine ⟨tr',?_,?_⟩
      · rw [heval₁,heval]
        simp
      · rw [hcalls,hcalls₁]
        simp [hstep]

theorem eval_runSteps_stuck (completed : List Step) (result : Result) {steps : List Step}
    (h : w.failing steps ≠ none)
    (hbad : ∃ s ∈ completed ++ w.done steps, s.compensates = true ∧ w.compensate s.name ≠ none)
    (tr : Trace) : ∃ res e tr', w.eval (runSteps r completed result steps) tr =
      (.ok (res,e),tr') ∧ res.status = .compensating := by
  induction steps generalizing completed result tr with
  | nil => exact absurd rfl h
  | cons step steps ih =>
    cases hstep : w.execute step.name with
    | some e =>
      obtain ⟨hdone,_⟩ := done_cons_failed hstep steps
      rw [hdone,List.append_nil] at hbad
      obtain ⟨tr₁,heval₁,_⟩ := eval_runSteps_failed (r := r) completed result hstep steps tr
      rw [heval₁]
      refine eval_compensate_failed step e { result with status := .compensating } ?_ tr₁
      simpa using hbad
    | none =>
      obtain ⟨hdone,hfailing⟩ := done_cons_ok hstep steps
      rw [hfailing] at h
      obtain ⟨tr₁,heval₁,_⟩ := eval_runSteps_ok (r := r) completed result hstep steps tr
      rw [heval₁]
      refine ih _ _ h ?_ tr₁
      simpa [hdone] using hbad

end Running

section Theorem

variable {w : World}

theorem names_of_validateSteps {seen : List String} {idx : ℕ} {steps : List Step}
    (h : validateSteps seen idx steps = .ok ()) :
    (steps.map Step.name).Nodup ∧ ∀ s ∈ steps, s.name ∉ seen := by
  induction steps generalizing seen idx with
  | nil => simp
  | cons step steps ih =>
    rw [validateSteps] at h
    split at h
    · cases h
    · split_ifs at h with hseen
      obtain ⟨hnodup,hfresh⟩ := ih h
      refine ⟨?_,?_⟩
      · rw [List.map_cons,List.nodup_cons]
        refine ⟨fun hmem => ?_,hnodup⟩
        obtain ⟨s,hs,heq⟩ := List.mem_map.mp hmem
        exact hfresh s hs (heq ▸ List.mem_cons_self)
      · intro s hs
        rcases List.mem_cons.mp hs with rfl | hs
        · exact hseen
        · exact fun hmem => hfresh s hs (List.mem_cons_of_mem _ hmem)

theorem names_of_validate {d : Definition} (h : d.validate = .ok ()) :
    (d.steps.map Step.name).Nodup := by
  unfold Definition.validate at h
  split_ifs at h
  exact (names_of_validateSteps h).1

theorem prefix_called (steps : List Step) :
    w.done steps ++ (w.failing steps).toList <+: steps := by
  induction steps with
  | nil => exact List.prefix_rfl
  | cons step steps ih =>
    cases hstep : w.execute step.name with
    | none =>
      obtain ⟨hdone,hfailing⟩ := done_cons_ok hstep steps
      rw [hdone,hfailing,List.cons_append]
      exact List.cons_prefix_cons.mpr ⟨rfl,ih⟩
    | some e =>
      obtain ⟨hdone,hfailing⟩ := done_cons_failed hstep steps
      rw [hdone,hfailing]
      exact ⟨steps,rfl⟩

theorem failing_error {steps : List Step} {s : Step} (h : w.failing steps = some s) :
    w.execute s.name ≠ none := by
  have := List.find?_some h
  exact Option.isSome_iff_ne_none.mp this

theorem mem_undone {steps : List Step} {s : Step} :
    s ∈ undone steps ↔ s ∈ steps ∧ s.compensates = true := by
  simp [undone]

theorem reversible_iff (steps : List Step) : w.reversible steps = true ↔ w.failing steps = none ∨
    ∀ s ∈ w.done steps, s.compensates = true → w.compensate s.name = none := by
  simp only [World.reversible,Bool.or_eq_true,Option.isNone_iff_eq_none,List.all_eq_true,
    Bool.not_eq_true']
  refine or_congr_right (forall₂_congr fun s _ => ?_)
  cases s.compensates <;> simp

theorem compensated_of_reversible (r : Runner) (h : w.reversible r.definition.steps = true) :
    ∃ result err tr, w.eval (run r (some ())) [] = (.ok (result,err),tr) ∧
      Compensated w r.definition.steps result err tr := by
  have honce : ((w.done r.definition.steps ++ (w.failing r.definition.steps).toList).map
      Step.name).Nodup :=
    List.Nodup.sublist ((prefix_called _).sublist.map _) (names_of_validate r.valid)
  obtain ⟨tr₀,heval₀,hcalls₀⟩ := eval_emit_bind (r := r) (w := w) "" .running none
    (runSteps r [] ⟨.running,[],[]⟩ r.definition.steps) []
  cases hfailing : w.failing r.definition.steps with
  | none =>
    obtain ⟨tr,heval,hcalls⟩ := eval_runSteps_completed (r := r) [] ⟨.running,[],[]⟩ hfailing tr₀
    rw [hfailing] at honce
    refine ⟨_,_,tr,heval₀.trans heval,?_,?_,?_,?_,.inl rfl,?_,fun hne => absurd rfl hne⟩
    · rw [hcalls,hcalls₀,hfailing]
      simp [calls]
    · rw [hfailing]
      exact honce
    · simp
    · simp [hfailing]
    · simp
  | some s =>
    have hok : ∀ s ∈ [] ++ w.done r.definition.steps,
        s.compensates = true → w.compensate s.name = none := by
      rcases (reversible_iff _).mp h with hnone | hok
      · rw [hfailing] at hnone
        cases hnone
      · exact hok
    obtain ⟨tr,heval,hcalls⟩ := eval_runSteps_compensates (r := r) [] ⟨.running,[],[]⟩ hfailing hok tr₀
    have hundone : ∀ s ∈ undone (w.done r.definition.steps), w.compensate s.name = none :=
      fun s hs => hok s (mem_undone.mp hs).1 (mem_undone.mp hs).2
    rw [hfailing] at honce
    refine ⟨_,_,tr,heval₀.trans heval,?_,?_,?_,?_,.inr (.inl rfl),?_,?_⟩
    · rw [hcalls,hcalls₀,hfailing]
      simp [calls]
    · rw [hfailing]
      exact honce
    · simp
    · have hall : (undone (w.done r.definition.steps)).filter
          (fun s => (w.compensate s.name).isNone) = undone (w.done r.definition.steps) :=
        List.filter_eq_self.mpr fun s hs => by simp [hundone s hs]
      simp [hfailing,hall]
    · simpa using failing_error hfailing
    · exact fun _ => iff_of_true rfl hundone

theorem saga_compensated_iff (r : Runner) (w : World) :
    (∃ result err tr, w.eval (run r (some ())) [] = (.ok (result,err),tr) ∧
      Compensated w r.definition.steps result err tr) ↔ w.reversible r.definition.steps = true := by
  refine ⟨?_,compensated_of_reversible r⟩
  rintro ⟨result,err,tr,heval,hcomp⟩
  rw [reversible_iff]
  by_contra hbad
  push Not at hbad
  obtain ⟨hfailing,hstuck⟩ := hbad
  obtain ⟨tr₀,heval₀,_⟩ := eval_emit_bind (r := r) (w := w) "" .running none
    (runSteps r [] ⟨.running,[],[]⟩ r.definition.steps) []
  obtain ⟨res,e,tr',hstuckEval,hstatus⟩ := eval_runSteps_stuck (r := r) [] ⟨.running,[],[]⟩ hfailing
    hstuck tr₀
  have hsame : w.eval (run r (some ())) [] = (.ok (res,e),tr') := heval₀.trans hstuckEval
  rw [heval] at hsame
  cases hsame
  rcases hcomp.terminal with h | h | h
  · rw [hstatus] at h
    cases h
  · rw [hstatus] at h
    cases h
  · rw [hstatus] at h
    cases h

-- the payment fails and the inventory cannot be released
def checkout : Runner where
  definition := ⟨"checkout",[⟨"order",true,true⟩,⟨"reserve_inventory",true,true⟩,
    ⟨"charge_payment",true,false⟩]⟩
  observed := false
  valid := by decide +kernel

def declined : World where
  execute name := if name = "charge_payment" then some (.text "payment failed") else none
  compensate name := if name = "reserve_inventory" then some (.text "stock is down") else none
  now _ := 0
  onEvent _ _ := none

theorem failed_compensation_stops_saga :
    ¬ (∃ result err tr, declined.eval (run checkout (some ())) [] = (.ok (result,err),tr) ∧
      Compensated declined checkout.definition.steps result err tr) ∧
    (declined.eval (run checkout (some ())) []).1 = .ok (⟨.compensating,["order","reserve_inventory"],
      []⟩,some ((GoError.text "payment failed").join (.text "stock is down"))) ∧
    calls (declined.eval (run checkout (some ())) []).2 =
      [.execute "order" none,.execute "reserve_inventory" none,
        .execute "charge_payment" (some (.text "payment failed")),
        .compensate "reserve_inventory" (some (.text "stock is down"))] := by
  refine ⟨?_,by rfl,by rfl⟩
  rintro ⟨result,err,tr,heval,hcomp⟩
  have hstatus : (declined.eval (run checkout (some ())) []).1.toOption.map (·.1.status) =
      some .compensating := by rfl
  rw [heval] at hstatus
  rcases hcomp.terminal with h | h | h <;> simp [h,Except.toOption] at hstatus

end Theorem

end Nimburion.Reliability.Saga
