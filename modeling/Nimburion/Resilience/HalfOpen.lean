import Nimburion.Lib.Interaction
import Nimburion.Resilience.CircuitBreaker

namespace Nimburion.Resilience.Execute
open Interaction GoTime

inductive Op where
  | canExecute
  | fn
  | recordFailure
  | recordSuccess
  deriving DecidableEq, Repr

-- canExecute's answer is the state the call was admitted in; Execute only reads whether it was
abbrev Ans : Op → Type
  | .canExecute => Option State
  | .fn => Option GoError
  | .recordFailure => Unit
  | .recordSuccess => Unit

def execute : Prog Op Ans GoError Unit := do
  let admitted ← Prog.perform Op.canExecute
  match admitted with
  | none => Prog.fail errCircuitBreakerOpen
  | some _ => do
      let err ← Prog.perform Op.fn
      match err with
      | some e => do
          let _ ← Prog.perform Op.recordFailure
          Prog.fail e
      | none => Prog.perform Op.recordSuccess

structure Shared where
  breaker : CircuitBreaker
  clock : Time

def exec (s : Shared) (op : Op) (outcome : Option GoError) : Option (Ans op × Shared) :=
  match op with
  | .canExecute =>
      let r := s.breaker.canExecute s.clock
      some (if r.1 then some r.2.state else none,{ s with breaker := r.2 })
  | .fn => some (outcome,s)
  | .recordFailure => some ((),{ s with breaker := s.breaker.recordFailure s.clock })
  | .recordSuccess => some ((),{ s with breaker := s.breaker.recordSuccess })

abbrev Trace := List (Event Ans)

abbrev Calls := Config Ans GoError Shared Unit Unit

abbrev Call := Thread Ans GoError Unit Unit

abbrev Step := Action Unit (Option GoError) ℕ

def system : Machine Ans GoError Shared Unit Unit (Option GoError) ℕ where
  program := fun _ => execute
  exec := exec
  env := fun s elapsed => { s with clock := s.clock+elapsed }

def fresh (maxFailures : Int) (timeout : Duration) (clock : Time) : Calls :=
  ⟨⟨newCircuitBreaker maxFailures timeout,clock⟩,[]⟩

def isReport : Event Ans → Bool
  | ⟨.recordFailure,_⟩ => true
  | ⟨.recordSuccess,_⟩ => true
  | _ => false

def isProbe : Event Ans → Bool
  | ⟨.canExecute,some .halfOpen⟩ => true
  | _ => false

def admittedHalfOpen (tr : Trace) : Bool := tr.any isProbe

def probing (t : Call) : Bool := admittedHalfOpen t.trace && !t.trace.any isReport

def probes (c : Calls) : ℕ := c.threads.countP probing

def state (c : Calls) : State := c.shared.breaker.state

def elapsed (c : Calls) : Prop :=
  c.shared.breaker.timeout < c.shared.clock-c.shared.breaker.lastFailTime

-- no admission while half-open, none that leaves open while an older probe runs, and no
-- half-open success reported by a call that was admitted before
def Separate (c : Calls) : Step → Prop
  | .exec i _ => ∀ t, c.threads[i]? = some t → t.alive = true → match t.rest with
      | .call .canExecute _ => state c ≠ .halfOpen ∧
          (state c = .open_ → elapsed c → probes c = 0)
      | .call .recordSuccess _ => state c = .halfOpen → admittedHalfOpen t.trace = true
      | _ => True
  | _ => True

def reportsSuccess (t : Call) : Bool :=
  match t.rest with
  | .call .recordSuccess _ => true
  | _ => false

def reporter (c : Calls) : Step → Option Call
  | .exec i _ => c.threads[i]?
  | _ => none

def ProbeClosed (c c' : Calls) (a : Step) : Prop :=
  state c = .halfOpen → state c' = .closed →
    (reporter c a).any (fun t => reportsSuccess t && admittedHalfOpen t.trace) = true

def Disciplined (c : Calls) (a : Step) : Prop :=
  match system.step c a with
  | none => True
  | some c' => probes c' ≤ 1 ∧ ProbeClosed c c' a

instance (c c' : Calls) (a : Step) : Decidable (ProbeClosed c c' a) :=
  inferInstanceAs (Decidable (_ → _ → _))

instance (c : Calls) (a : Step) : Decidable (Disciplined c a) :=
  match h : system.step c a with
  | none => .isTrue (by simp [Disciplined,h])
  | some c' => decidable_of_iff (probes c' ≤ 1 ∧ ProbeClosed c c' a) (by simp [Disciplined,h])

def order : Spec Ans where
  pre tr op := op = .canExecute → tr = []
  ans _ _ := True

theorem meets_execute : Prog.Meets order (fun _ _ => True) [] execute := by
  simp only [execute,Prog.meets_bind,Prog.meets_perform]
  refine ⟨fun _ => rfl,?_⟩
  rintro (_ | admittedIn) _
  · trivial
  · simp only [Prog.meets_bind,Prog.meets_perform]
    refine ⟨by simp [order],?_⟩
    rintro (_ | e) _
    · exact ⟨by simp [order],fun _ _ => trivial⟩
    · exact ⟨by simp [order],fun _ _ => trivial⟩

structure Tracked (c : Calls) : Prop where
  threads : Machine.ThreadsMeet (fun _ => order) (fun _ _ _ => True) c
  probed : state c = .halfOpen → 0 < probes c
  single : probes c ≤ 1

theorem canExecute_cases (c : Calls) :
    (state c = .closed ∧ c.shared.breaker.canExecute c.shared.clock = (true,c.shared.breaker)) ∨
    (state c = .halfOpen ∧ c.shared.breaker.canExecute c.shared.clock = (true,c.shared.breaker)) ∨
    (state c = .open_ ∧ elapsed c ∧ c.shared.breaker.canExecute c.shared.clock =
      (true,{ c.shared.breaker with state := .halfOpen, successes := 0 })) ∨
    (state c = .open_ ∧ ¬ elapsed c ∧
      c.shared.breaker.canExecute c.shared.clock = (false,c.shared.breaker)) := by
  simp only [state,CircuitBreaker.canExecute,elapsed]
  cases c.shared.breaker.state with
  | closed => exact .inl ⟨rfl,rfl⟩
  | halfOpen => exact .inr (.inl ⟨rfl,rfl⟩)
  | open_ =>
    by_cases helapsed : c.shared.breaker.timeout < c.shared.clock-c.shared.breaker.lastFailTime
    · exact .inr (.inr (.inl ⟨rfl,helapsed,if_pos helapsed⟩))
    · exact .inr (.inr (.inr ⟨rfl,helapsed,if_neg helapsed⟩))

theorem recordFailure_state (cb : CircuitBreaker) (now : Time) :
    (cb.recordFailure now).state ≠ .halfOpen ∧
    (cb.state = .halfOpen → (cb.recordFailure now).state = .open_) := by
  cases h : cb.state with
  | halfOpen => simp [CircuitBreaker.recordFailure,h]
  | closed | open_ =>
    simp only [CircuitBreaker.recordFailure,h]
    split <;> simp

theorem recordSuccess_state (cb : CircuitBreaker) :
    cb.recordSuccess.state ≠ .halfOpen ∧
    (cb.state = .halfOpen → cb.recordSuccess.state = .closed) := by
  cases h : cb.state <;> simp [CircuitBreaker.recordSuccess,h]

section Steps

variable {c : Calls} {i : ℕ} {t : Call} {s' : Shared}

theorem probes_set (ht : c.threads[i]? = some t) (s' : Shared) (t' : Call) :
    probes ⟨s',c.threads.set i t'⟩ + (probing t).toNat = probes c + (probing t').toNat :=
  Machine.countP_set_toNat probing t' ht

theorem probes_append (call : Unit) (s : Shared) :
    probes ⟨s,c.threads ++ [⟨call,execute,[],true⟩]⟩ = probes c := by
  simp [probes,probing,admittedHalfOpen]

theorem separate_exec {op : Op} {k : Ans op → Prog Op Ans GoError Unit} {x : Option GoError}
    (ht : c.threads[i]? = some t) (halive : t.alive = true) (hrest : t.rest = .call op k) :
    Separate c (.exec i x) ↔ match op with
      | .canExecute => state c ≠ .halfOpen ∧ (state c = .open_ → elapsed c → probes c = 0)
      | .recordSuccess => state c = .halfOpen → admittedHalfOpen t.trace = true
      | _ => True := by
  simp only [Separate,ht,Option.some.injEq,forall_eq',halive,forall_const,hrest]
  cases op <;> rfl

inductive Effect (c : Calls) (a : Step) (c' : Calls) : Prop where
  | unseen (hstate : state c' = state c) (hprobes : probes c' = probes c) (hsep : Separate c a)
  | probe (hstate : state c' = .halfOpen) (hprobes : probes c' = probes c+1)
      (hsep : Separate c a ↔ state c ≠ .halfOpen ∧ probes c = 0)
  | failure (hstate : state c' ≠ .halfOpen) (hopen : state c = .halfOpen → state c' = .open_)
      (hprobes : probes c' ≤ probes c) (hsep : Separate c a)
  | success (t : Call) (hstate : state c' ≠ .halfOpen) (hclosed : state c = .halfOpen →
      state c' = .closed) (hprobes : probes c' ≤ probes c) (hreporter : reporter c a = some t)
      (hsuccess : reportsSuccess t = true)
      (hsep : Separate c a ↔ (state c = .halfOpen → admittedHalfOpen t.trace = true))

theorem effect_canExecute {k : Ans .canExecute → Prog Op Ans GoError Unit} {x : Option GoError}
    {ans : Option State} (ht : c.threads[i]? = some t) (halive : t.alive = true)
    (hrest : t.rest = .call .canExecute k) (htrace : t.trace = [])
    (hx : exec c.shared .canExecute x = some (ans,s')) :
    Effect c (.exec i x) ⟨s',c.threads.set i { t with
      rest := k ans, trace := ⟨.canExecute,ans⟩ :: t.trace }⟩ := by
  have hcount := probes_set ht s' { t with
    rest := k ans, trace := ⟨.canExecute,ans⟩ :: t.trace }
  have hsep := separate_exec (x := x) ht halive hrest
  simp only [exec,Option.some.injEq,Prod.mk.injEq] at hx
  obtain ⟨rfl,rfl⟩ := hx
  rw [htrace] at hcount ⊢
  obtain ⟨hs,hcan⟩ | ⟨hs,hcan⟩ | ⟨hs,helapsed,hcan⟩ | ⟨hs,helapsed,hcan⟩ := canExecute_cases c
  · have hs' : c.shared.breaker.state = .closed := hs
    simp only [hcan,hs',probing,htrace,admittedHalfOpen,List.any_cons,List.any_nil,isProbe,
      isReport,if_true] at hcount ⊢
    exact .unseen rfl (by simpa using hcount) (hsep.mpr (by simp [hs]))
  · have hs' : c.shared.breaker.state = .halfOpen := hs
    simp only [hcan,hs',probing,htrace,admittedHalfOpen,List.any_cons,List.any_nil,isProbe,
      isReport,if_true] at hcount ⊢
    exact .probe hs (by simpa using hcount) (hsep.trans (by simp [hs]))
  · simp only [hcan,probing,htrace,admittedHalfOpen,List.any_cons,List.any_nil,isProbe,
      isReport,if_true] at hcount ⊢
    exact .probe rfl (by simpa using hcount) (hsep.trans (by simp [hs,helapsed]))
  · simp only [hcan,probing,htrace,admittedHalfOpen,List.any_cons,List.any_nil,isProbe,
      isReport,Bool.false_eq_true,if_false] at hcount ⊢
    exact .unseen rfl (by simpa using hcount) (hsep.mpr (by simp [hs,helapsed]))

theorem effect_exec {op : Op} {k : Ans op → Prog Op Ans GoError Unit} {x : Option GoError}
    {ans : Ans op} (h : Tracked c) (ht : c.threads[i]? = some t) (halive : t.alive = true)
    (hrest : t.rest = .call op k) (hx : exec c.shared op x = some (ans,s')) :
    Effect c (.exec i x) ⟨s',c.threads.set i { t with
      rest := k ans, trace := ⟨op,ans⟩ :: t.trace }⟩ := by
  have hmeets := h.threads t (List.mem_of_getElem? ht)
  rw [hrest,Prog.meets_call] at hmeets
  have hcount := probes_set ht s' { t with rest := k ans, trace := ⟨op,ans⟩ :: t.trace }
  have hsep := separate_exec (x := x) ht halive hrest
  cases op with
  | canExecute => exact effect_canExecute ht halive hrest (hmeets.1 rfl) hx
  | fn =>
    simp only [exec,Option.some.injEq,Prod.mk.injEq] at hx
    obtain ⟨-,rfl⟩ := hx
    refine .unseen rfl ?_ (hsep.mpr trivial)
    simpa [probing,admittedHalfOpen,isProbe,isReport] using hcount
  | recordFailure =>
    simp only [exec,Option.some.injEq,Prod.mk.injEq] at hx
    obtain ⟨-,rfl⟩ := hx
    obtain ⟨hstate,hopen⟩ := recordFailure_state c.shared.breaker c.shared.clock
    refine .failure hstate hopen ?_ (hsep.mpr trivial)
    simp only [probing,admittedHalfOpen,isProbe,isReport,List.any_cons,Bool.true_or,Bool.not_true,
      Bool.and_false,Bool.toNat_false] at hcount
    omega
  | recordSuccess =>
    simp only [exec,Option.some.injEq,Prod.mk.injEq] at hx
    obtain ⟨-,rfl⟩ := hx
    obtain ⟨hstate,hclosed⟩ := recordSuccess_state c.shared.breaker
    refine .success t hstate hclosed ?_ ht (by simp [reportsSuccess,hrest]) hsep
    simp only [probing,admittedHalfOpen,isProbe,isReport,List.any_cons,Bool.true_or,Bool.not_true,
      Bool.and_false,Bool.toNat_false] at hcount
    omega

theorem step_effect {a : Step} {c' : Calls} (h : Tracked c) (hs : system.step c a = some c') :
    Effect c a c' := by
  obtain ⟨call,rfl,rfl⟩ | ⟨i,x,t,op,k,ans,s',rfl,ht,halive,hrest,hx,rfl⟩ | ⟨i,t,rfl,ht,rfl⟩ |
    ⟨e,rfl,rfl⟩ := system.step_cases hs
  · exact .unseen rfl (probes_append call c.shared) trivial
  · exact effect_exec h ht halive hrest hx
  · refine .unseen rfl ?_ trivial
    have hcount := probes_set ht c.shared { t with alive := false }
    simpa [probing] using hcount
  · exact .unseen rfl rfl trivial

theorem separate_of_stuck {a : Step} (hs : system.step c a = none) : Separate c a := by
  cases a with
  | start call => trivial
  | crash i => trivial
  | env e => trivial
  | exec i x =>
    intro t ht halive
    cases hrest : t.rest with
    | ret => trivial
    | fail => trivial
    | call op k =>
      exfalso
      simp only [Machine.step,ht,Option.bind_some,Option.map_eq_none_iff,Machine.advance,halive,
        if_true,hrest,system] at hs
      cases op <;> simp [exec] at hs

theorem separate_iff_disciplined (h : Tracked c) (a : Step) : Separate c a ↔ Disciplined c a := by
  cases hs : system.step c a with
  | none =>
    exact iff_of_true (separate_of_stuck hs) (by simp [Disciplined,hs])
  | some c' =>
    have hone := h.single
    simp only [Disciplined,hs,ProbeClosed]
    cases step_effect h hs with
    | unseen hstate hprobes hsep =>
      refine iff_of_true hsep ⟨by omega,?_⟩
      intro hhalf hclosed
      rw [hstate,hhalf] at hclosed
      cases hclosed
    | probe hstate hprobes hsep =>
      rw [hsep,hstate]
      constructor
      · exact fun hfree => ⟨by omega,fun _ hclosed => by cases hclosed⟩
      · rintro ⟨hle,_⟩
        refine ⟨fun hhalf => ?_,by omega⟩
        have := h.probed hhalf
        omega
    | failure hstate hopen hprobes hsep =>
      refine iff_of_true hsep ⟨by omega,?_⟩
      intro hhalf hclosed
      rw [hopen hhalf] at hclosed
      cases hclosed
    | success t hstate hclosed hprobes hreporter hsuccess hsep =>
      rw [hsep,hreporter]
      simp only [Option.any_some,hsuccess,Bool.true_and]
      constructor
      · exact fun hadmitted => ⟨by omega,fun hhalf _ => hadmitted hhalf⟩
      · exact fun hdone hhalf => hdone.2 hhalf (hclosed hhalf)

theorem tracked_step {a : Step} {c' : Calls} (h : Tracked c) (hd : Disciplined c a)
    (hs : system.step c a = some c') : Tracked c' := by
  simp only [Disciplined,hs] at hd
  refine ⟨h.threads.step (m := system) (fun _ => meets_execute) (fun _ _ _ _ _ _ _ => trivial) hs,
    ?_,hd.1⟩
  intro hhalf
  cases step_effect h hs with
  | unseen hstate hprobes => exact hprobes ▸ h.probed (hstate ▸ hhalf)
  | probe hstate hprobes => omega
  | failure hstate => exact absurd hhalf hstate
  | success t hstate => exact absurd hhalf hstate

end Steps

theorem tracked_fresh (maxFailures : Int) (timeout : Duration) (clock : Time) :
    Tracked (fresh maxFailures timeout clock) :=
  ⟨fun t ht => by simp [fresh] at ht,fun h => by simp [state,fresh,newCircuitBreaker] at h,
    by simp [probes,fresh]⟩

theorem probe_discipline_iff (maxFailures : Int) (timeout : Duration) (clock : Time)
    (acts : List Step) :
    system.Along Disciplined acts (fresh maxFailures timeout clock) ↔
      system.Along Separate acts (fresh maxFailures timeout clock) :=
  (system.along_congr (fun _ a h => separate_iff_disciplined h a)
    (fun _ _ _ h hd hs => tracked_step h hd hs) (tracked_fresh maxFailures timeout clock)).symm

def openCircuit : List Step :=
  [.start (),.start (),.start (),.exec 0 none,.exec 1 none,.exec 1 (some (.text "boom")),.exec 1 none,
    .env 2]

theorem second_probe_and_stale_success :
    ¬ system.Along Disciplined (openCircuit ++
      ([.start (),.exec 2 none,.exec 3 none] : List Step))
      (fresh 1 1 0) ∧
    ¬ system.Along Disciplined (openCircuit ++
      ([.exec 2 none,.exec 0 none,.exec 0 none] : List Step))
      (fresh 1 1 0) := by
  decide +kernel

end Nimburion.Resilience.Execute
