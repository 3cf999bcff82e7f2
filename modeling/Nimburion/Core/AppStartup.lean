import Nimburion.Core.AppShutdown

-- New, Prepare and Run of the application; from the runners on, Run is the machine of Core.App
namespace Nimburion.Core.App
open GoTime GoText Transition

inductive StartPhase where
  | configResolution
  | observabilityBaseline
  | featureRegistration
  | healthRegistration
  | serviceConstruction
  deriving DecidableEq, Repr

def StartPhase.text : StartPhase → String
  | .configResolution => "config_resolution"
  | .observabilityBaseline => "observability_baseline"
  | .featureRegistration => "feature_registration"
  | .healthRegistration => "health_registration"
  | .serviceConstruction => "service_construction"

-- what one feature contributes to the lifecycle
structure Contributions where
  observabilityHooks : List Hook
  startupHooks : List Hook
  healthContributors : List Hook
  instrumentationHooks : List Hook
  serviceConstructors : List Hook
  runtimeRunners : List Hook
  shutdownHooks : List Hook
  introspectionContributors : List Hook

-- a hook of the app: `calls` tells whether its function has anything to call, `owner` is the
-- feature it comes from
structure AppHook where
  name : String
  hasFn : Bool
  calls : Bool
  owner : Option ℕ
  deriving DecidableEq, Repr

-- a feature may be nil
structure Options where
  features : List (Option Contributions)
  debug : Bool
  shutdownTimeout : Duration
  configResolvers : List Hook
  observabilityHooks : List Hook
  featureRegistrations : List Hook
  healthRegistrations : List Hook
  instrumentationHooks : List Hook
  serviceConstructors : List Hook
  runners : List Hook
  shutdownHooks : List Hook

def given (hook : Hook) : AppHook := ⟨hook.name,hook.hasFn,hook.hasFn,none⟩

-- adaptFeatureHooks puts a function around a nil one
def adaptFeatureHook (feature : ℕ) (hook : Hook) : AppHook := ⟨hook.name,true,hook.hasFn,some feature⟩

-- one list of collectFeatureContributions
def collectFeatureHooks (of : Contributions → List Hook) (o : Options) : List AppHook :=
  o.features.zipIdx.flatMap fun (feature,i) =>
    (feature.map of).toList.flatten.map (adaptFeatureHook i)

def collected (hooks : List Hook) (of : Contributions → List Hook) (o : Options) : List AppHook :=
  hooks.map given ++ collectFeatureHooks of o

def Options.allShutdownHooks (o : Options) : List AppHook :=
  collected o.shutdownHooks Contributions.shutdownHooks o

-- the phases of Prepare with their hooks
def Options.phases (o : Options) : List (StartPhase × List AppHook) :=
  [(StartPhase.configResolution,o.configResolvers.map given),
    (StartPhase.observabilityBaseline,collected o.observabilityHooks Contributions.observabilityHooks o),
    (StartPhase.featureRegistration,collected o.featureRegistrations Contributions.startupHooks o),
    (StartPhase.healthRegistration,collected o.healthRegistrations Contributions.healthContributors o)] ++
  (if o.debug then
    [(StartPhase.healthRegistration,collectFeatureHooks Contributions.introspectionContributors o)] else []) ++
  [(StartPhase.observabilityBaseline,collected o.instrumentationHooks Contributions.instrumentationHooks o),
    (StartPhase.serviceConstruction,collected o.serviceConstructors Contributions.serviceConstructors o)]

def newApp (o : Options) : Application :=
  new o.shutdownTimeout
    ((collected o.runners Contributions.runtimeRunners o).map fun h => ⟨h.name,h.hasFn⟩)
    (o.allShutdownHooks.map fun h => ⟨h.name,h.hasFn⟩)

section Deployment

inductive PostureLevel where
  | singleRegionOnly
  | multiRegion (name : String)
  deriving DecidableEq, Repr

structure DeploymentPosture where
  level : PostureLevel
  recoveryState : String
  regionScope : String
  writerTopology : String
  replayRequired : Bool
  externalDurableDependencyRequired : Bool
  leaderLockLocality : String
  idempotencyRequired : Bool
  deduplicationBoundary : String
  deriving DecidableEq, Repr

def newDeploymentPosture : DeploymentPosture :=
  ⟨.singleRegionOnly,"normal","","",false,false,"",false,""⟩

def DeploymentPosture.validate (equalFold : String → String → Bool) (p : DeploymentPosture) :
    Option GoError :=
  let multiRegion : Bool := p.level ≠ .singleRegionOnly
  if multiRegion && trimSpace p.regionScope = "" then
    some (.text "deployment posture region_scope is required for multi-region levels")
  else if multiRegion && trimSpace p.writerTopology = "" then
    some (.text "deployment posture writer_topology is required for multi-region levels")
  else if !multiRegion && p.recoveryState ≠ "normal" then
    some (.text "single-region posture cannot declare failover recovery states")
  else if p.replayRequired && !p.idempotencyRequired then
    some (.text "replay_required posture must also require idempotency")
  else if multiRegion && equalFold (trimSpace p.leaderLockLocality) "single_instance_only" then
    some (.text "multi-region posture cannot use single_instance_only leader lock locality")
  else if multiRegion && p.externalDurableDependencyRequired &&
      trimSpace p.deduplicationBoundary = "" then
    some (.text "multi-region posture with durable dependencies must define deduplication_boundary")
  else none

end Deployment

section Start

-- a hook function that was called, and what it returned
structure Called where
  phase : StartPhase
  hook : AppHook
  err : Option GoError
  deriving DecidableEq, Repr

-- what the hooks do, as it depends on the calls before: the rules of the failure injector, how the
-- select of an injected delay ends, what a function returns, and the deployment posture
structure World where
  specs : List Called → String → Option FailureSpec
  interrupted : List Called → Option GoError
  returns : List Called → AppHook → Option GoError
  deployment : List Called → DeploymentPosture
  equalFold : String → String → Bool

def hookFailureTarget (phase : StartPhase) (name : String) : String :=
  "phase:" ++ phase.text ++ "/hook:" ++ trimSpace name

variable (w : World)

-- FailureInjector.Apply
def World.apply (past : List Called) (target : String) : Option GoError :=
  match App.apply (w.specs past target) with
  | .passed => none
  | .failed e => some e
  | .waits _ => w.interrupted past

def World.call (past : List Called) (hook : AppHook) : Option GoError :=
  if hook.calls then w.returns past hook else none

def runPhase (phase : StartPhase) : List AppHook → List Called → Option GoError × List Called
  | [], past => (none,past)
  | hook :: hooks, past =>
      if !hook.hasFn then runPhase phase hooks past
      else match w.apply past (hookFailureTarget phase hook.name) with
        | some e => (some (.wrapped (phase.text ++ " failure injection for hook " ++ quote hook.name ++
            " failed: ") e),past)
        | none => match w.call past hook with
            | some e => (some (.wrapped (phase.text ++ " hook " ++ quote hook.name ++ " failed: ") e),
                past ++ [⟨phase,hook,some e⟩])
            | none => runPhase phase hooks (past ++ [⟨phase,hook,none⟩])

def runPhases : List (StartPhase × List AppHook) → List Called → Option GoError × List Called
  | [], past => match (w.deployment past).validate w.equalFold with
      | some e => (some (.wrapped "deployment posture validation failed: " e),past)
      | none => (none,past)
  | (phase,hooks) :: phases, past => match runPhase w phase hooks past with
      | (some e,past) => (some e,past)
      | (none,past) => runPhases phases past

def prepare (o : Options) : Option GoError × List Called := runPhases w o.phases []

-- `life` is the machine behind Prepare once Run has returned, if it came to that
structure Ended where
  prepareErr : Option GoError
  called : List Called
  life : Option State

-- what Run leaves; the caller's context and the acts of the lifecycle come from outside
def runApp (o : Options) (now : Time) (callerErr : Option GoError)
    (specs : String → Option FailureSpec) (acts : List Act) : Option Ended :=
  match prepare w o with
  | (some err,called) => some ⟨some err,called,none⟩
  | (none,called) =>
      (run (step (newApp o)) acts (started (newApp o) now callerErr specs)).bind fun c =>
        match c.phase with
        | .returned _ _ => some ⟨none,called,some c⟩
        | _ => none

end Start

def Ended.visits (r : Ended) : List Visit := (r.life.map State.visits).getD []

-- the shutdown hook at this place has run
def Ended.ranHook (r : Ended) (i : ℕ) : Prop := ∃ v ∈ r.visits, v.index = i ∧ v.ran = true

-- a startup hook or a service constructor of the feature has succeeded
def Ended.acquired (r : Ended) (feature : ℕ) : Prop :=
  ∃ e ∈ r.called, e.hook.owner = some feature ∧ e.err = none ∧
    (e.phase = .featureRegistration ∨ e.phase = .serviceConstruction)

-- the hook functions that Prepare calls when none fails
def Options.sequence (o : Options) : List (StartPhase × AppHook) :=
  o.phases.flatMap fun p => (p.2.filter AppHook.hasFn).map fun h => (p.1,h)

section Order

-- the calls follow the sequence, and a call after which the start goes on has succeeded
structure Follows (seq : List (StartPhase × AppHook)) (failed : Bool) (new : List Called) : Prop where
  order : new.map (fun e => (e.phase,e.hook)) <+: seq
  clean : ∀ e ∈ new.dropLast, e.err = none
  complete : failed = false →
    new.map (fun e => (e.phase,e.hook)) = seq ∧ ∀ e ∈ new, e.err = none

theorem follows_stopped (seq : List (StartPhase × AppHook)) : Follows seq true [] :=
  ⟨List.nil_prefix,by simp,fun h => (nomatch h)⟩

theorem follows_failing (phase : StartPhase) (hook : AppHook) (e : GoError)
    (seq : List (StartPhase × AppHook)) :
    Follows ((phase,hook) :: seq) true [⟨phase,hook,some e⟩] :=
  ⟨⟨seq,rfl⟩,by simp,fun h => (nomatch h)⟩

theorem Follows.cons {seq : List (StartPhase × AppHook)} {failed : Bool} {new : List Called}
    (h : Follows seq failed new) (phase : StartPhase) (hook : AppHook) :
    Follows ((phase,hook) :: seq) failed (⟨phase,hook,none⟩ :: new) := by
  refine ⟨(List.prefix_cons_inj _).mpr h.order,?_,fun hdone => ?_⟩
  · cases new with
    | nil => simp
    | cons e new =>
      rw [List.dropLast_cons_of_ne_nil (List.cons_ne_nil e new),List.forall_mem_cons]
      exact ⟨rfl,h.clean⟩
  · obtain ⟨hseq,herr⟩ := h.complete hdone
    exact ⟨congrArg (List.cons (phase,hook)) hseq,List.forall_mem_cons.mpr ⟨rfl,herr⟩⟩

theorem Follows.extend {seq : List (StartPhase × AppHook)} {new : List Called}
    (h : Follows seq true new) (more : List (StartPhase × AppHook)) :
    Follows (seq ++ more) true new :=
  ⟨h.order.trans (List.prefix_append _ _),h.clean,fun hdone => (nomatch hdone)⟩

theorem Follows.append {seq seq' : List (StartPhase × AppHook)} {failed : Bool}
    {new new' : List Called} (h : Follows seq false new) (h' : Follows seq' failed new') :
    Follows (seq ++ seq') failed (new ++ new') := by
  obtain ⟨rfl,herr⟩ := h.complete rfl
  induction new with
  | nil => exact h'
  | cons e new ih =>
    obtain ⟨he,hnew⟩ := List.forall_mem_cons.mp herr
    have htail : Follows (new.map fun e => (e.phase,e.hook)) false new :=
      ⟨List.prefix_rfl,fun e he => hnew e ((List.dropLast_sublist new).subset he),fun _ => ⟨rfl,hnew⟩⟩
    have hcons := (ih hnew htail).cons e.phase e.hook
    rw [← he] at hcons
    exact hcons

variable (w : World)

theorem runPhase_follows (phase : StartPhase) (hooks : List AppHook) (past : List Called) :
    ∃ new, (runPhase w phase hooks past).2 = past ++ new ∧
      Follows ((hooks.filter AppHook.hasFn).map fun h => (phase,h))
        (runPhase w phase hooks past).1.isSome new := by
  induction hooks generalizing past with
  | nil => exact ⟨[],(List.append_nil past).symm,List.prefix_rfl,by simp,fun _ => ⟨rfl,by simp⟩⟩
  | cons hook hooks ih =>
    rw [runPhase]
    cases hfn : hook.hasFn with
    | false =>
      rw [List.filter_cons_of_neg (by simp [hfn])]
      exact ih past
    | true =>
      rw [List.filter_cons_of_pos hfn,List.map_cons]
      simp only [Bool.not_true,Bool.false_eq_true,if_false]
      split
      · exact ⟨[],(List.append_nil past).symm,follows_stopped _⟩
      · split
        · rename_i e _
          exact ⟨_,rfl,follows_failing phase hook e _⟩
        · obtain ⟨new,hnew,hfollows⟩ := ih (past ++ [⟨phase,hook,none⟩])
          exact ⟨⟨phase,hook,none⟩ :: new,by rw [hnew,List.append_assoc]; rfl,
            hfollows.cons phase hook⟩

theorem runPhases_follows (phases : List (StartPhase × List AppHook)) (past : List Called) :
    ∃ new, (runPhases w phases past).2 = past ++ new ∧
      Follows (phases.flatMap fun p => (p.2.filter AppHook.hasFn).map fun h => (p.1,h))
        (runPhases w phases past).1.isSome new := by
  induction phases generalizing past with
  | nil =>
    rw [runPhases]
    split
    · exact ⟨[],(List.append_nil past).symm,follows_stopped _⟩
    · exact ⟨[],(List.append_nil past).symm,List.prefix_rfl,by simp,fun _ => ⟨rfl,by simp⟩⟩
  | cons p phases ih =>
    obtain ⟨phase,hooks⟩ := p
    obtain ⟨new,hnew,hfollows⟩ := runPhase_follows w phase hooks past
    rw [runPhases,List.flatMap_cons]
    split
    · rename_i e past' heq
      rw [heq] at hnew hfollows
      exact ⟨new,hnew,hfollows.extend _⟩
    · rename_i past' heq
      rw [heq] at hnew hfollows
      simp only at hnew
      obtain ⟨more,hmore,hrest⟩ := ih past'
      exact ⟨new ++ more,by rw [hmore,hnew,List.append_assoc],hfollows.append hrest⟩

theorem prepare_follows (o : Options) :
    Follows o.sequence (prepare w o).1.isSome (prepare w o).2 := by
  obtain ⟨new,hnew,hfollows⟩ := runPhases_follows w o.phases []
  rw [List.nil_append] at hnew
  rw [prepare,hnew]
  exact hfollows

end Order

section Release

variable {w : World} {o : Options} {now : Time} {callerErr : Option GoError}
  {specs : String → Option FailureSpec} {acts : List Act} {r : Ended}

theorem runApp_cases (h : runApp w o now callerErr specs acts = some r) :
    r.prepareErr = (prepare w o).1 ∧ r.called = (prepare w o).2 ∧
      ((r.prepareErr.isSome = true ∧ r.life = none) ∨
        (r.prepareErr = none ∧ ∃ c e es, r.life = some c ∧ c.phase = .returned e es ∧
          run (step (newApp o)) acts (started (newApp o) now callerErr specs) = some c)) := by
  rw [runApp] at h
  split at h
  · rename_i err called heq
    cases h
    exact ⟨by rw [heq],by rw [heq],.inl ⟨rfl,rfl⟩⟩
  · rename_i called heq
    obtain ⟨c,hc,h⟩ := Option.bind_eq_some_iff.mp h
    split at h
    · rename_i e es hphase
      cases h
      exact ⟨by rw [heq],by rw [heq],.inr ⟨rfl,c,e,es,rfl,hphase,hc⟩⟩
    · cases h

theorem shutdownHooks_newApp (o : Options) :
    (newApp o).shutdownHooks = o.allShutdownHooks.map fun h => ⟨h.name,h.hasFn⟩ := rfl

-- behind a start that went through, shutdown visits every hook once, the last one first
theorem started_visits {c : State} {e : Option GoError} {es : List GoError}
    (hphase : c.phase = .returned e es)
    (hrun : run (step (newApp o)) acts (started (newApp o) now callerErr specs) = some c) :
    c.visits.map Visit.index = (List.range o.allShutdownHooks.length).reverse ∧
    ∀ v ∈ c.visits, ∃ hook, o.allShutdownHooks[v.index]? = some hook ∧
      (hook.hasFn = true → active v.found = false → v.ran = true) := by
  have horderly : Orderly (newApp o) c := run_reaches (fun _ _ _ => orderly_step)
    (orderly_started now callerErr specs) hrun
  have hindex := horderly.returned e es hphase
  rw [shutdownHooks_newApp,List.length_map] at hindex
  refine ⟨hindex,fun v hv => ?_⟩
  obtain ⟨hook,hhook,_,hran⟩ := horderly.faithful v hv
  rw [shutdownHooks_newApp,List.getElem?_map] at hhook
  obtain ⟨h,hh,rfl⟩ := Option.map_eq_some_iff.mp hhook
  exact ⟨h,hh,hran⟩

theorem failed_start_stops_lifecycle (w : World) (o : Options) (now : Time)
    (callerErr : Option GoError) (specs : String → Option FailureSpec) (acts : List Act) (r : Ended)
    (h : runApp w o now callerErr specs acts = some r) :
    r.prepareErr = (prepare w o).1 ∧ Follows o.sequence r.prepareErr.isSome r.called ∧
    (r.prepareErr ≠ none → r.life = none ∧ ∀ i, ¬ r.ranHook i) ∧
    (r.prepareErr = none →
      r.visits.map Visit.index = (List.range o.allShutdownHooks.length).reverse ∧
      ∀ feature, r.acquired feature → ∀ i hook, o.allShutdownHooks[i]? = some hook →
        hook.owner = some feature → ∃ v ∈ r.visits, v.index = i ∧
          (hook.hasFn = true → active v.found = false → v.ran = true)) := by
  obtain ⟨herr,hcalled,hlife⟩ := runApp_cases h
  refine ⟨herr,by rw [herr,hcalled]; exact prepare_follows w o,?_,?_⟩
  · intro hfailed
    rcases hlife with ⟨_,hnone⟩ | ⟨hok,_⟩
    · refine ⟨hnone,fun i => ?_⟩
      rintro ⟨v,hv,_⟩
      simp [Ended.visits,hnone] at hv
    · exact absurd hok hfailed
  · intro hok
    rcases hlife with ⟨hfailed,_⟩ | ⟨_,c,e,es,hc,hphase,hrun⟩
    · simp [hok] at hfailed
    · obtain ⟨hindex,hran⟩ := started_visits hphase hrun
      have hvisits : r.visits = c.visits := by simp [Ended.visits,hc]
      rw [hvisits]
      refine ⟨hindex,fun feature _ i hook hhook _ => ?_⟩
      have hmem : i ∈ c.visits.map Visit.index := by
        rw [hindex,List.mem_reverse,List.mem_range]
        exact (List.getElem?_eq_some_iff.mp hhook).1
      obtain ⟨v,hv,rfl⟩ := List.mem_map.mp hmem
      obtain ⟨hook',hhook',hfaithful⟩ := hran v hv
      rw [hhook] at hhook'
      cases hhook'
      exact ⟨v,hv,rfl,hfaithful⟩

-- a feature that opens a database at the start and closes it at the end, and a broker
def database : Contributions where
  observabilityHooks := []
  startupHooks := [⟨"open-db",true⟩]
  healthContributors := []
  instrumentationHooks := []
  serviceConstructors := []
  runtimeRunners := []
  shutdownHooks := [⟨"close-db",true⟩]
  introspectionContributors := []

def withBroker : Options where
  features := [some database]
  debug := false
  shutdownTimeout := 0
  configResolvers := []
  observabilityHooks := []
  featureRegistrations := []
  healthRegistrations := []
  instrumentationHooks := []
  serviceConstructors := [⟨"broker",true⟩]
  runners := []
  shutdownHooks := []

def brokerReturns (err : Option GoError) : World where
  specs := fun _ _ => none
  interrupted := fun _ => none
  returns := fun _ hook => if hook.name = "broker" then err else none
  deployment := fun _ => newDeploymentPosture
  equalFold := fun a b => a = b

def openDB : Called := ⟨.featureRegistration,adaptFeatureHook 0 ⟨"open-db",true⟩,none⟩

def startBroker (err : Option GoError) : Called := ⟨.serviceConstruction,given ⟨"broker",true⟩,err⟩

theorem allShutdownHooks_withBroker :
    withBroker.allShutdownHooks = [adaptFeatureHook 0 ⟨"close-db",true⟩] := rfl

theorem database_closed_behind_start : ∃ r,
    runApp (brokerReturns none) withBroker 0 none noFailures
      [.shutdown,.next,.hookReturns none,.finish none] = some r ∧
    r.called = [openDB,startBroker none] ∧ r.ranHook 0 := by
  have hresult : (runApp (brokerReturns none) withBroker 0 none noFailures
      [.shutdown,.next,.hookReturns none,.finish none]).map
      (fun r => (r.prepareErr,r.called,r.visits)) =
      some (none,[openDB,startBroker none],[⟨0,none,true⟩]) := by decide +kernel
  obtain ⟨r,hrun,hr⟩ := Option.map_eq_some_iff.mp hresult
  simp only [Prod.mk.injEq] at hr
  obtain ⟨herr,hcalled,hvisits⟩ := hr
  refine ⟨r,hrun,hcalled,?_⟩
  obtain ⟨_,_,_,hclosed⟩ := failed_start_stops_lifecycle (brokerReturns none) withBroker 0 none
    noFailures _ r hrun
  obtain ⟨v,hv,hindex,hran⟩ := (hclosed herr).2 0
    ⟨openDB,by simp [hcalled],rfl,rfl,.inl rfl⟩ 0 _ (by rw [allShutdownHooks_withBroker]; rfl) rfl
  rw [hvisits,List.mem_singleton] at hv
  subst hv
  exact ⟨_,by simp [hvisits],hindex,hran rfl rfl⟩

-- the broker refuses, and the database stays open
theorem refused_broker_leaves_database_open :
    ¬∀ (w : World) (o : Options) (now : Time) (callerErr : Option GoError)
      (specs : String → Option FailureSpec) (acts : List Act) (r : Ended),
      runApp w o now callerErr specs acts = some r → r.prepareErr ≠ none →
      ∀ feature, r.acquired feature → ∀ i hook, o.allShutdownHooks[i]? = some hook →
        hook.owner = some feature → r.ranHook i := by
  intro hclaim
  have hresult : (runApp (brokerReturns (some (.text "refused"))) withBroker 0 none noFailures []).map
      (fun r => (r.prepareErr.isSome,r.called,r.visits)) =
      some (true,[openDB,startBroker (some (.text "refused"))],[]) := by decide +kernel
  obtain ⟨r,hrun,hr⟩ := Option.map_eq_some_iff.mp hresult
  simp only [Prod.mk.injEq] at hr
  obtain ⟨herr,hcalled,hvisits⟩ := hr
  have hopen : r.acquired 0 := ⟨openDB,by simp [hcalled],rfl,rfl,.inl rfl⟩
  obtain ⟨v,hv,_⟩ := hclaim _ _ 0 none noFailures [] r hrun
    (fun hnone => by simp [hnone] at herr) 0 hopen 0 _
    (by rw [allShutdownHooks_withBroker]; rfl) rfl
  simp [hvisits] at hv

end Release

end Nimburion.Core.App
