import Nimburion.Jobs.Worker

namespace Nimburion.Jobs.Worker
open Interaction GoText GoTime

inductive Phase where
  | idle
  | selecting
  | renewing
  | exited
  deriving DecidableEq, Repr

-- `failed` and `cut` only record the run: a Renew that failed before stopRenew, and one that
-- stopRenew found in progress or that began after it
structure Renewal where
  phase : Phase
  cancelled : Bool
  ticked : Bool
  done : Option (Option GoError)
  stopped : Bool
  failed : Bool
  cut : Bool
  deriving DecidableEq

def Renewal.initial : Renewal := ⟨.idle,false,false,none,false,false,false⟩

inductive RenewalEvent where
  | tick
  | cancelParent
  | selectDone
  | selectTick
  | renewReturns (r : Option GoError)

def renewFailed (err : GoError) : GoError :=
  .join (.jobs .retryable "renew lease failed") err

def renewalStep (s : Renewal) : RenewalEvent → Renewal
  | .tick => { s with ticked := s.phase ≠ .idle }
  | .cancelParent => { s with cancelled := true }
  | .selectDone =>
      if s.phase = .selecting ∧ s.cancelled = true then
        { s with phase := .exited, done := some none }
      else s
  | .selectTick =>
      if s.phase = .selecting ∧ s.ticked = true then
        { s with phase := .renewing, ticked := false, cut := s.cut || s.stopped }
      else s
  | .renewReturns r =>
      if s.phase = .renewing ∧ (s.cancelled = true → r = some .contextCanceled) then
        match r with
        | none => { s with phase := .selecting }
        | some err => { s with
            phase := .exited
            done := some (some (renewFailed err))
            failed := s.failed || !s.stopped }
      else s

inductive Choice where
  | ok
  | handler (err : Option GoError)
  | at (t : Time)
  | result (r : Except GoError Unit)

def exec (s : Renewal) (op : Op) (x : Choice) : Option (Ans op × Renewal) :=
  match op with
  | .executeHandler _ => match x with
      | .handler err => some (err,s)
      | _ => none
  | .startLeaseRenewal _ => some ((),{ s with phase := .selecting })
  | .stopRenew => some ((),{ s with
      cancelled := true
      stopped := true
      cut := s.cut || s.phase = .renewing })
  | .renewDone => s.done.map fun err => (err,s)
  | .now => match x with
      | .at t => some (t,s)
      | _ => none
  | .ack _ => match x with
      | .result r => some (r,s)
      | _ => none
  | .nack .. => match x with
      | .result r => some (r,s)
      | _ => none
  | .moveToDLQ .. => match x with
      | .result r => some (r,s)
      | _ => none
  | .quarantine _ => match x with
      | .result r => some (r,s)
      | _ => none

abbrev Delivery := Job × Lease

abbrev ProcessState := Interaction.Config Ans GoError Renewal Delivery Unit

abbrev Trace := List (Interaction.Event Ans)

section System

variable (cfg : WorkerConfig) (registered : String → Bool)

def processSystem : Machine Ans GoError Renewal Delivery Unit Choice RenewalEvent where
  program d := process cfg registered d.1 d.2
  exec := exec
  env := renewalStep

def processStart (d : Delivery) : ProcessState :=
  ⟨.initial,[⟨d,process cfg registered d.1 d.2,[],true⟩]⟩

inductive Move where
  | process (x : Choice)
  | renewal (e : RenewalEvent)

def Move.action : Move → Action Delivery Choice RenewalEvent
  | process x => .exec 0 x
  | renewal e => .env e

def processRun (moves : List Move) (c : ProcessState) : Option ProcessState :=
  (processSystem cfg registered).run (moves.map Move.action) c

end System

-- what executeHandler answered, behind its recover and WithTimeout
def handlerResult : Trace → Option (Option GoError)
  | [] => none
  | ⟨.executeHandler _,err⟩ :: _ => some err
  | _ :: tr => handlerResult tr

def renewResult : Trace → Option (Option GoError)
  | [] => none
  | ⟨.renewDone,err⟩ :: _ => some err
  | _ :: tr => renewResult tr

def isAck : Op → Bool
  | .ack _ => true
  | _ => false

def diverts : Op → Bool
  | .nack .. => true
  | .moveToDLQ .. => true
  | .quarantine _ => true
  | _ => false

def ackedOnly (tr : Trace) : Bool :=
  (tr.any fun ev => isAck ev.op) && tr.all fun ev => !diverts ev.op

def drops (cfg : WorkerConfig) (job : Job) (failure : GoError) : Bool :=
  (decision cfg job failure).disposition = .drop

structure Quiet (tr : Trace) : Prop where
  acks : ∀ ev ∈ tr, isAck ev.op = false
  diversions : ∀ ev ∈ tr, diverts ev.op = false

def started (tr : Trace) : Prop := ∃ ev ∈ tr, ∃ lease, ev.op = .startLeaseRenewal lease

def stopped (tr : Trace) : Prop := ∃ ev ∈ tr, ev.op = .stopRenew

def renewalDiscipline : Spec Ans where
  pre tr op := (op = .renewDone → started tr ∧ stopped tr) ∧
    ∀ lease, op = .startLeaseRenewal lease → ¬ started tr
  ans _ _ := True

def processResult (cfg : WorkerConfig) (job : Job) (tr : Trace) : Prop :=
  match handlerResult tr,renewResult tr with
  | some execErr,some renewErr => ackedOnly tr = match joinErrors execErr renewErr with
      | none => true
      | some failure => drops cfg job failure
  | some _,none => False
  | none,_ => True

section Meets

variable (cfg : WorkerConfig) {job : Job} {lease : Lease} {failure : GoError} {tr : Trace}

theorem meets_orFail {kind : JobsErrorKind} {msg : String} {r : Except GoError Unit}
    {post : Trace → Except GoError Unit → Prop} (herr : ∀ e, post tr (.error e))
    (hok : post tr (.ok ())) : Prog.Meets renewalDiscipline post tr (orFail kind msg r) := by
  cases r with
  | error e => exact herr _
  | ok _ => exact hok

theorem ackedOnly_of_diverted {ev : Interaction.Event Ans} (hmem : ev ∈ tr)
    (h : diverts ev.op = true) : ackedOnly tr = false := by
  simp only [ackedOnly,Bool.and_eq_false_iff]
  right
  rw [List.all_eq_false]
  exact ⟨ev,hmem,by simp [h]⟩

theorem ackedOnly_cons_ack (lease : Lease) (r : Except GoError Unit) (h : Quiet tr) :
    ackedOnly (⟨.ack lease,r⟩ :: tr) = true := by
  simp only [ackedOnly,List.any_cons,List.all_cons,Bool.and_eq_true,Bool.or_eq_true,
    List.all_eq_true]
  refine ⟨.inl rfl,rfl,?_⟩
  intro ev hev
  rw [h.diversions ev hev]
  rfl

theorem meets_moveToDLQ (job : Job) (h : drops cfg job failure = false) :
    Prog.Meets renewalDiscipline (fun tr' _ => ackedOnly tr' = drops cfg job failure ∧
      handlerResult tr' = handlerResult tr ∧ renewResult tr' = renewResult tr) tr
      (moveToDLQ lease failure) := by
  simp only [moveToDLQ,Prog.meets_bind,Prog.meets_perform]
  refine ⟨by simp [renewalDiscipline],?_⟩
  intro r _
  have hdone : ∀ tr' : Trace, tr' = ⟨.moveToDLQ lease failure,r⟩ :: tr →
      ackedOnly tr' = drops cfg job failure ∧ handlerResult tr' = handlerResult tr ∧
        renewResult tr' = renewResult tr := by
    rintro tr' rfl
    exact ⟨(ackedOnly_of_diverted List.mem_cons_self rfl).trans h.symm,rfl,rfl⟩
  exact meets_orFail (fun _ => hdone _ rfl) (hdone _ rfl)

theorem meets_handleFailure (h : Quiet tr) :
    Prog.Meets renewalDiscipline (fun tr' _ => ackedOnly tr' = drops cfg job failure ∧
      handlerResult tr' = handlerResult tr ∧ renewResult tr' = renewResult tr) tr
      (handleFailure cfg job lease failure) := by
  cases hd : (decision cfg job failure).disposition with
  | immediateRetry => exact absurd hd (decision_ne_immediateRetry cfg job failure)
  | delayedRetry =>
    have hdrop : drops cfg job failure = false := by simp [drops,hd]
    simp only [handleFailure,hd,Prog.meets_bind,Prog.meets_perform]
    refine ⟨by simp [renewalDiscipline],fun now _ => ⟨by simp [renewalDiscipline],fun r _ => ?_⟩⟩
    apply meets_orFail
    · exact fun _ => ⟨(ackedOnly_of_diverted List.mem_cons_self rfl).trans hdrop.symm,rfl,rfl⟩
    · exact ⟨(ackedOnly_of_diverted List.mem_cons_self rfl).trans hdrop.symm,rfl,rfl⟩
  | quarantine =>
    have hdrop : drops cfg job failure = false := by simp [drops,hd]
    simp only [handleFailure,hd,quarantine_enabled hd,if_true,Prog.meets_bind,Prog.meets_perform]
    refine ⟨by simp [renewalDiscipline],fun now _ => ⟨by simp [renewalDiscipline],fun r _ => ?_⟩⟩
    apply meets_orFail
    · exact fun _ => ⟨(ackedOnly_of_diverted List.mem_cons_self rfl).trans hdrop.symm,rfl,rfl⟩
    · refine ⟨by simp [renewalDiscipline],fun r' _ => ?_⟩
      apply meets_orFail
      · exact fun _ => ⟨(ackedOnly_of_diverted (List.mem_cons_of_mem _ List.mem_cons_self)
          rfl).trans hdrop.symm,rfl,rfl⟩
      · exact ⟨(ackedOnly_of_diverted (List.mem_cons_of_mem _ List.mem_cons_self)
          rfl).trans hdrop.symm,rfl,rfl⟩
  | deadLetter =>
    simp only [handleFailure,hd]
    exact meets_moveToDLQ cfg job (by simp [drops,hd])
  | drop =>
    have hdrop : drops cfg job failure = true := by simp [drops,hd]
    simp only [handleFailure,hd,Prog.meets_bind,Prog.meets_perform]
    refine ⟨by simp [renewalDiscipline],fun r _ => ?_⟩
    have hack := (ackedOnly_cons_ack lease r h).trans hdrop.symm
    exact meets_orFail (fun _ => ⟨hack,rfl,rfl⟩) ⟨hack,rfl,rfl⟩

theorem meets_process (registered : String → Bool) :
    Prog.Meets renewalDiscipline (fun tr' _ => processResult cfg job tr') []
      (process cfg registered job lease) := by
  unfold process
  rw [Prog.meets_ite]
  constructor
  · intro _
    simp only [Prog.meets_bind,Prog.meets_perform]
    refine ⟨by simp [renewalDiscipline,started],fun _ _ => ⟨by simp [renewalDiscipline],fun execErr _ =>
      ⟨by simp [renewalDiscipline],fun _ _ => ⟨?_,fun renewErr _ => ?_⟩⟩⟩⟩
    · refine ⟨fun _ => ⟨⟨_,List.mem_cons_of_mem _ (List.mem_cons_of_mem _ List.mem_cons_self),
        lease,rfl⟩,⟨_,List.mem_cons_self,rfl⟩⟩,by simp⟩
    · have hquiet : Quiet [⟨.renewDone,renewErr⟩,⟨.stopRenew,()⟩,⟨.executeHandler job,execErr⟩,
          ⟨.startLeaseRenewal lease,()⟩] := by
        constructor <;> simp [isAck,diverts]
      cases hj : joinErrors execErr renewErr with
      | some failure =>
        refine Prog.meets_mono ?_ (meets_handleFailure cfg hquiet)
        rintro tr' r ⟨hack,hhandler,hrenew⟩
        simp only [processResult,hhandler,hrenew,handlerResult,renewResult,hj,hack]
      | none =>
        simp only [Prog.meets_bind,Prog.meets_perform]
        refine ⟨by simp [renewalDiscipline],fun r _ => ?_⟩
        have hack := ackedOnly_cons_ack lease r hquiet
        have hres : processResult cfg job (⟨.ack lease,r⟩ :: [⟨.renewDone,renewErr⟩,
            ⟨.stopRenew,()⟩,⟨.executeHandler job,execErr⟩,⟨.startLeaseRenewal lease,()⟩]) := by
          simp only [processResult,handlerResult,renewResult,hj,hack]
        exact meets_orFail (fun _ => hres) hres
  · intro _
    refine Prog.meets_mono ?_ (meets_handleFailure cfg ⟨by simp,by simp⟩)
    rintro tr' r ⟨_,hhandler,_⟩
    simp only [processResult,hhandler,handlerResult]

end Meets

structure RenewalSound (s : Renewal) : Prop where
  exited : s.phase = .exited ↔ s.done.isSome = true
  cancels : s.stopped = true → s.cancelled = true
  renewing : s.phase = .renewing → s.stopped = true → s.cut = true
  cut : s.cut = true → s.stopped = true ∧
    (s.phase = .renewing ∨ s.done = some (some (renewFailed .contextCanceled)))
  reported : ∀ err, s.done = some (some err) → s.failed = true ∨ s.cut = true

structure Answered (tr : Trace) (s : Renewal) : Prop where
  done : ∀ err, renewResult tr = some err → s.done = some err
  started : started tr ↔ s.phase ≠ .idle
  stopped : stopped tr → s.stopped = true

theorem renewalSound_initial : RenewalSound .initial := by
  constructor <;> simp [Renewal.initial]

theorem renewalSound_step {s : Renewal} (h : RenewalSound s) (e : RenewalEvent) :
    RenewalSound (renewalStep s e) := by
  cases e with
  | tick => exact ⟨h.exited,h.cancels,h.renewing,h.cut,h.reported⟩
  | cancelParent => exact ⟨h.exited,fun _ => rfl,h.renewing,h.cut,h.reported⟩
  | selectDone =>
    simp only [renewalStep]
    split_ifs with hc
    · have hnone : s.cut = false := by
        by_contra hcut
        rcases (h.cut (by simpa using hcut)).2 with hp | hd
        · rw [hc.1] at hp
          cases hp
        · have hex := h.exited.mpr (by simp [hd])
          rw [hc.1] at hex
          cases hex
      refine ⟨by simp,h.cancels,by simp,by simp [hnone],by simp⟩
    · exact h
  | selectTick =>
    simp only [renewalStep]
    split_ifs with hc
    · have hdone : s.done = none := by
        rw [← Option.not_isSome_iff_eq_none,← h.exited,hc.1]
        simp
      refine ⟨by simp [hdone],h.cancels,fun _ hs => Bool.or_eq_true _ _ ▸ .inr hs,?_,by simp [hdone]⟩
      intro hcut
      refine ⟨?_,.inl rfl⟩
      rcases Bool.or_eq_true _ _ ▸ hcut with hold | hstop
      · exact (h.cut hold).1
      · exact hstop
    · exact h
  | renewReturns r =>
    simp only [renewalStep]
    split_ifs with hc
    · have hdone : s.done = none := by
        rw [← Option.not_isSome_iff_eq_none,← h.exited,hc.1]
        simp
      cases r with
      | none =>
        have hnot : s.cancelled = false := by
          by_contra hcan
          simpa using hc.2 (by simpa using hcan)
        have hstop : s.stopped = false := by
          by_contra hs
          have hcan := h.cancels (by simpa using hs)
          rw [hnot] at hcan
          cases hcan
        refine ⟨by simp [hdone],h.cancels,by simp,?_,h.reported⟩
        intro hcut
        have hs := (h.cut hcut).1
        rw [hstop] at hs
        cases hs
      | some err =>
        refine ⟨by simp,h.cancels,by simp,?_,?_⟩
        · intro hcut
          obtain ⟨hs,_⟩ := h.cut hcut
          have herr := hc.2 (h.cancels hs)
          exact ⟨hs,.inr (by rw [Option.some.inj herr])⟩
        · intro err' _
          cases hs : s.stopped with
          | false => exact .inl (by simp)
          | true => exact .inr (h.renewing hc.1 hs)
    · exact h

theorem done_step {s : Renewal} (h : RenewalSound s) (e : RenewalEvent) {err : Option GoError}
    (hd : s.done = some err) : (renewalStep s e).done = some err := by
  have hex := h.exited.mpr (by simp [hd])
  cases e <;> simp [renewalStep,hex,hd]

theorem phase_step (s : Renewal) (e : RenewalEvent) :
    (renewalStep s e).phase = .idle ↔ s.phase = .idle := by
  cases e with
  | tick | cancelParent => exact Iff.rfl
  | selectDone | selectTick =>
    simp only [renewalStep]
    split_ifs with hc
    · simp [hc.1]
    · exact Iff.rfl
  | renewReturns r =>
    simp only [renewalStep]
    split_ifs with hc
    · cases r <;> simp [hc.1]
    · exact Iff.rfl

theorem stopped_step {s : Renewal} (e : RenewalEvent) :
    (renewalStep s e).stopped = s.stopped := by
  cases e with
  | tick | cancelParent => rfl
  | selectDone | selectTick => simp only [renewalStep]; split_ifs <;> rfl
  | renewReturns r => cases r <;> simp only [renewalStep] <;> split_ifs <;> rfl

theorem answered_step {s : Renewal} {tr : Trace} (hs : RenewalSound s) (h : Answered tr s)
    (e : RenewalEvent) : Answered tr (renewalStep s e) :=
  ⟨fun err herr => done_step hs e (h.done err herr),h.started.trans (phase_step s e).symm.not,
    fun ht => (stopped_step e).trans (h.stopped ht)⟩

theorem answered_cons {s : Renewal} {tr : Trace} {op : Op} {ans : Ans op} (h : Answered tr s)
    (hdone : op ≠ .renewDone) (hstart : ∀ lease, op ≠ .startLeaseRenewal lease)
    (hstop : op ≠ .stopRenew) : Answered (⟨op,ans⟩ :: tr) s := by
  refine ⟨?_,?_,?_⟩
  · intro err herr
    cases op <;> first
      | exact absurd rfl hdone
      | exact h.done err herr
  · rw [← h.started]
    simp [started,hstart]
  · intro ht
    refine h.stopped ?_
    simpa [stopped,hstop] using ht

theorem exec_sound {s s' : Renewal} {tr : Trace} {op : Op} {x : Choice} {ans : Ans op}
    (hs : RenewalSound s) (h : Answered tr s) (hpre : renewalDiscipline.pre tr op)
    (hx : exec s op x = some (ans,s')) : RenewalSound s' ∧ Answered (⟨op,ans⟩ :: tr) s' := by
  cases op with
  | startLeaseRenewal lease =>
    have hidle : s.phase = .idle := by
      by_contra hne
      exact hpre.2 lease rfl (h.started.mpr hne)
    have hdone : s.done = none := by
      rw [← Option.not_isSome_iff_eq_none,← hs.exited,hidle]
      simp
    have hcut : s.cut = false := by
      by_contra hc
      rcases (hs.cut (by simpa using hc)).2 with hp | hd
      · rw [hidle] at hp
        cases hp
      · rw [hdone] at hd
        cases hd
    simp only [exec,Option.some.injEq,Prod.mk.injEq] at hx
    obtain ⟨-,rfl⟩ := hx
    refine ⟨⟨by simp [hdone],hs.cancels,by simp,by simp [hcut],by simp [hdone]⟩,?_,?_,?_⟩
    · exact fun err herr => h.done err herr
    · simp [started]
    · intro ht
      refine h.stopped ?_
      simpa [stopped] using ht
  | stopRenew =>
    simp only [exec,Option.some.injEq,Prod.mk.injEq] at hx
    obtain ⟨-,rfl⟩ := hx
    have hrenewing : s.phase = .renewing → (s.cut || decide (s.phase = .renewing)) = true :=
      fun hp => by simp [hp]
    refine ⟨⟨hs.exited,fun _ => rfl,fun hp _ => hrenewing hp,?_,?_⟩,?_,?_,fun _ => rfl⟩
    · intro hc
      refine ⟨rfl,?_⟩
      rcases Bool.or_eq_true _ _ ▸ hc with hold | hren
      · exact (hs.cut hold).2
      · exact .inl (by simpa using hren)
    · intro err hd
      rcases hs.reported err hd with hf | hc
      · exact .inl hf
      · exact .inr (by simp [hc])
    · exact fun err herr => h.done err herr
    · rw [← h.started]
      simp [started]
  | renewDone =>
    simp only [exec,Option.map_eq_some_iff,Prod.mk.injEq] at hx
    obtain ⟨err,hd,rfl,rfl⟩ := hx
    refine ⟨hs,?_,?_,?_⟩
    · intro err' herr
      simp only [renewResult,Option.some.injEq] at herr
      rw [← herr,hd]
    · rw [← h.started]
      simp [started]
    · intro ht
      refine h.stopped ?_
      simpa [stopped] using ht
  | executeHandler | now | ack | nack | moveToDLQ | quarantine =>
    cases x <;> simp only [exec,Option.some.injEq,Prod.mk.injEq,reduceCtorEq] at hx
    obtain ⟨rfl,rfl⟩ := hx
    exact ⟨hs,answered_cons h (by simp) (by simp) (by simp)⟩

def returned (t : Thread Ans GoError Delivery Unit) : Bool :=
  match t.rest with
  | .call .. => false
  | _ => true

section Runs

variable {cfg : WorkerConfig} {registered : String → Bool} {d : Delivery}

def InProcess (d : Delivery) (c : ProcessState) : Prop :=
  ∃ p tr, c.threads = [⟨d,p,tr,true⟩] ∧ RenewalSound c.shared ∧ Answered tr c.shared

theorem along_moves (moves : List Move) (c : ProcessState) :
    (processSystem cfg registered).Along (fun _ a => ∃ m : Move, a = m.action)
      (moves.map Move.action) c := by
  induction moves generalizing c with
  | nil => trivial
  | cons m moves ih =>
    refine ⟨⟨m,rfl⟩,?_⟩
    cases (processSystem cfg registered).step c m.action with
    | none => trivial
    | some c' => exact ih c'

theorem inProcess_of_run {moves : List Move} {c : ProcessState}
    (hrun : processRun cfg registered moves (processStart cfg registered d) = some c) :
    InProcess d c ∧ Machine.ThreadsMeet (fun _ => renewalDiscipline)
      (fun d tr _ => processResult cfg d.1 tr) c := by
  refine Machine.run_config_invariant (m := processSystem cfg registered)
    (P := fun _ a => ∃ m : Move, a = m.action) (fun d => meets_process cfg registered) ?_ ?_ ?_ ?_
    ?_ ?_ (along_moves moves _) hrun
  · rintro c call _ ⟨m | m,hm⟩ <;> cases hm
  · rintro c i x t op k ans s' ⟨p,tr,hc,hs,ha⟩ ⟨m | m,hm⟩ ht halive hrest hpre hx <;> cases hm
    rw [hc] at ht ⊢
    cases ht
    obtain ⟨hs',ha'⟩ := exec_sound hs ha hpre hx
    exact ⟨trivial,_,_,rfl,hs',ha'⟩
  · rintro c i t _ ⟨m | m,hm⟩ <;> cases hm
  · rintro c e ⟨p,tr,hc,hs,ha⟩ _
    exact ⟨p,tr,hc,renewalSound_step hs e,answered_step hs ha e⟩
  · refine ⟨_,[],rfl,renewalSound_initial,?_,?_,?_⟩
    · simp [renewResult]
    · simp [started,processStart,Renewal.initial]
    · simp [stopped]
  · intro t ht
    cases List.mem_singleton.mp ht
    exact meets_process cfg registered

theorem processRun_exec {s s' : Renewal} {op : Op} {k : Ans op → M Unit} {tr : Trace} {x : Choice}
    {ans : Ans op} (hx : exec s op x = some (ans,s')) (moves : List Move) :
    processRun cfg registered (.process x :: moves) ⟨s,[⟨d,.call op k,tr,true⟩]⟩ =
      processRun cfg registered moves ⟨s',[⟨d,k ans,⟨op,ans⟩ :: tr,true⟩]⟩ := by
  have hadv : (processSystem cfg registered).exec s op x = some (ans,s') := hx
  simp [processRun,Machine.run_cons,Move.action,Machine.step,Machine.advance,hadv]

theorem done_reachable {s : Renewal} (hs : RenewalSound s) (hidle : s.phase ≠ .idle)
    (hstop : s.stopped = true) : ∃ e, (renewalStep s e).done.isSome = true := by
  have hcan := hs.cancels hstop
  cases hp : s.phase with
  | idle => exact absurd hp hidle
  | selecting => exact ⟨.selectDone,by simp [renewalStep,hp,hcan]⟩
  | renewing => exact ⟨.renewReturns (some .contextCanceled),by simp [renewalStep,hp]⟩
  | exited => exact ⟨.tick,hs.exited.mp hp⟩

theorem process_can_return (cfg : WorkerConfig) (registered : String → Bool) (d : Delivery)
    {post : Trace → Except GoError Unit → Prop} (p : M Unit) {tr : Trace} {s : Renewal}
    (hm : Prog.Meets renewalDiscipline post tr p) (hs : RenewalSound s) (ha : Answered tr s) : ∃ moves c',
      processRun cfg registered moves ⟨s,[⟨d,p,tr,true⟩]⟩ = some c' ∧
        ∀ t ∈ c'.threads, returned t = true := by
  induction p generalizing tr s with
  | ret a => exact ⟨[],_,rfl,by simp [returned]⟩
  | fail e => exact ⟨[],_,rfl,by simp [returned]⟩
  | call op k ih =>
    have advance : ∀ (s₀ : Renewal) (x : Choice) (ans : Ans op) (s' : Renewal), RenewalSound s₀ →
        Answered tr s₀ → exec s₀ op x = some (ans,s') → ∃ moves c',
          processRun cfg registered moves ⟨s₀,[⟨d,.call op k,tr,true⟩]⟩ = some c' ∧
            ∀ t ∈ c'.threads, returned t = true := by
      intro s₀ x ans s' hs₀ ha₀ hx
      obtain ⟨hs',ha'⟩ := exec_sound hs₀ ha₀ hm.1 hx
      obtain ⟨moves,c',hrun,hret⟩ := ih ans (hm.2 ans trivial) hs' ha'
      exact ⟨.process x :: moves,c',by rw [processRun_exec hx,hrun],hret⟩
    cases op with
    | renewDone =>
      obtain ⟨hstarted,hstopped⟩ := hm.1.1 rfl
      obtain ⟨e,he⟩ := done_reachable hs (ha.started.mp hstarted) (ha.stopped hstopped)
      obtain ⟨v,hv⟩ := Option.isSome_iff_exists.mp he
      obtain ⟨moves,c',hrun,hret⟩ := advance (renewalStep s e) .ok v (renewalStep s e)
        (renewalSound_step hs e) (answered_step hs ha e) (by simp [exec,hv])
      exact ⟨.renewal e :: moves,c',hrun,hret⟩
    | startLeaseRenewal lease => exact advance s .ok _ _ hs ha rfl
    | stopRenew => exact advance s .ok _ _ hs ha rfl
    | executeHandler job => exact advance s (.handler none) _ _ hs ha rfl
    | now => exact advance s (.at 0) _ _ hs ha rfl
    | ack | nack | moveToDLQ | quarantine => exact advance s (.result (.ok ())) _ _ hs ha rfl

theorem success_acked_iff {moves : List Move} {c : ProcessState}
    {t : Thread Ans GoError Delivery Unit}
    (hrun : processRun cfg registered moves (processStart cfg registered d) = some c)
    (ht : t ∈ c.threads) (hnil : handlerResult t.trace = some none)
    (hrenews : c.shared.failed = false) :
    (∃ more c', processRun cfg registered more c = some c' ∧
      ∀ t' ∈ c'.threads, returned t' = true) ∧
    (returned t = true → (ackedOnly t.trace = true ↔
      c.shared.cut = false ∨ drops cfg d.1 (renewFailed .contextCanceled) = true)) := by
  obtain ⟨⟨p,tr,hc,hs,ha⟩,hmeet⟩ := inProcess_of_run hrun
  have hm := hmeet t ht
  rw [hc,List.mem_singleton] at ht
  subst ht
  constructor
  · obtain ⟨moves',c',hrun',hret⟩ := process_can_return cfg registered d p hm hs ha
    rw [← hc] at hrun'
    exact ⟨moves',c',hrun',hret⟩
  · intro hret
    have hres : processResult cfg d.1 tr := by
      cases p with
      | ret a => exact hm
      | fail e => exact hm
      | call op k => simp [returned] at hret
    simp only [processResult,hnil] at hres
    cases hr : renewResult tr with
    | none => simp [hr] at hres
    | some renewErr =>
      have hdone := ha.done renewErr hr
      have hexited := hs.exited.mpr (by simp [hdone])
      rw [hr] at hres
      cases renewErr with
      | none =>
        have hcut : c.shared.cut = false := by
          by_contra hcut
          rcases (hs.cut (by simpa using hcut)).2 with hp | hd
          · rw [hexited] at hp
            cases hp
          · rw [hdone] at hd
            cases hd
        simp only [joinErrors] at hres
        simp [hres,hcut]
      | some err =>
        have hcut : c.shared.cut = true := by
          rcases hs.reported err hdone with hf | hcut
          · rw [hrenews] at hf
            cases hf
          · exact hcut
        have herr : err = renewFailed .contextCanceled := by
          rcases (hs.cut hcut).2 with hp | hd
          · rw [hexited] at hp
            cases hp
          · rw [hdone] at hd
            exact Option.some.inj (Option.some.inj hd)
        simp only [joinErrors,herr] at hres
        simp [hres,hcut]

end Runs

def mailDelivery : Delivery := (mailAt 0 3,⟨"j1","a1","q",0,0⟩)

def isMail (name : String) : Bool := name = "mail"

def renewedBetween : List Move :=
  [.process .ok,.renewal .tick,.renewal .selectTick,.renewal (.renewReturns none),
    .process (.handler none),.process .ok,.renewal .selectDone,.process .ok,
    .process (.result (.ok ()))]

theorem success_acked_iff_renewed_between : ∃ c, ∃ t ∈ c.threads,
    processRun plainWorker.normalize isMail renewedBetween
      (processStart plainWorker.normalize isMail mailDelivery) = some c ∧
    ackedOnly t.trace = true := by
  have hrun : (processRun plainWorker.normalize isMail renewedBetween
      (processStart plainWorker.normalize isMail mailDelivery)).any (fun c =>
        !c.shared.failed && !c.shared.cut && c.threads.any fun t => returned t &&
          handlerResult t.trace = some none) = true := by decide +kernel
  obtain ⟨c,hc,hfacts⟩ := (Option.any_eq_true _ _).mp hrun
  simp only [Bool.and_eq_true,Bool.not_eq_true',List.any_eq_true,decide_eq_true_eq] at hfacts
  obtain ⟨⟨hfailed,hcut⟩,t,ht,hret,hnil⟩ := hfacts
  exact ⟨c,t,ht,hc,((success_acked_iff hc ht hnil hfailed).2 hret).mpr (.inl hcut)⟩

def renewCutByStop : List Move :=
  [.process .ok,.renewal .tick,.renewal .selectTick,.process (.handler none),.process .ok,
    .renewal (.renewReturns (some .contextCanceled)),.process .ok,.process (.at second),
    .process (.result (.ok ()))]

theorem cut_renew_nacks_success : ∃ c, ∃ t ∈ c.threads,
    processRun plainWorker.normalize isMail renewCutByStop
      (processStart plainWorker.normalize isMail mailDelivery) = some c ∧
    returned t = true ∧ handlerResult t.trace = some none ∧ c.shared.failed = false ∧
    ¬ ackedOnly t.trace = true := by
  have hrun : (processRun plainWorker.normalize isMail renewCutByStop
      (processStart plainWorker.normalize isMail mailDelivery)).any (fun c =>
        !c.shared.failed && c.threads.any fun t => returned t &&
          handlerResult t.trace = some none && !ackedOnly t.trace) = true := by decide +kernel
  obtain ⟨c,hc,hfacts⟩ := (Option.any_eq_true _ _).mp hrun
  simp only [Bool.and_eq_true,Bool.not_eq_true',List.any_eq_true,decide_eq_true_eq] at hfacts
  obtain ⟨hfailed,t,ht,⟨hret,hnil⟩,hack⟩ := hfacts
  exact ⟨c,t,ht,hc,hret,hnil,hfailed,by simp [hack]⟩

end Nimburion.Jobs.Worker
