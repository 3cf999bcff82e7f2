import Nimburion.HTTP.SSEHub

namespace Nimburion.HTTP.SSE
open Interaction GoTime GoText

-- the client a handler has registered and not yet disconnected, with its ID
def holds : Trace → Option (String × ℕ)
  | [] => none
  | ⟨.register c,.ok (ref,_)⟩ :: _ => some (c.id,ref)
  | ⟨.remove _,_⟩ :: _ => none
  | _ :: tr => holds tr

-- Subscribe has found or recorded a bus subscription for the client's channel
def ensured : Trace → Bool
  | [] => false
  | ⟨.register _,.ok (_,needSub)⟩ :: _ => !needSub
  | ⟨.lookupSub _,true⟩ :: _ => true
  | ⟨.recordSub .. ,.ok _⟩ :: _ => true
  | _ :: tr => ensured tr

-- the operations a handler performs outside the manager's own calls
def between : Op → Bool
  | .await .. => true
  | .writeEvent .. => true
  | .endRequest _ => true
  | _ => false

def inCall (t : Running) : Bool :=
  match t.rest with
  | .call op _ => !between op
  | _ => false

def handled (call : Call) : Spec Ans where
  pre tr op := match call,op with
    | .stream ctx req _,.register c => c.ctx = ctx ∧ c.channel = trimSpace req.channel ∧
        holds tr = none
    | .stream _ req _,.lookupSub channel => channel = trimSpace req.channel
    | .stream ctx req _,.recordSub channel sub => channel = trimSpace req.channel ∧
        tr.head? = some ⟨.busSubscribe ctx channel,.ok sub⟩
    | .stream ..,.remove id => ∃ ref, holds tr = some (id,ref)
    | .stream ..,.await .. => ensured tr = true
    | .stream ..,.writeEvent .. => ensured tr = true
    | .stream ..,.endRequest _ => holds tr = none
    | .stream ..,_ => True
    | _,.register _ => False
    | _,.lookupSub _ => False
    | _,.busSubscribe .. => False
    | _,.recordSub .. => False
    | _,_ => True
  ans _ _ := True

inductive Apart : Op → Prop
  | nextEventID : Apart .nextEventID
  | remove (clientID : String) : Apart (.remove clientID)
  | beginClose (ref : ℕ) : Apart (.beginClose ref)
  | closeEvents (ref : ℕ) : Apart (.closeEvents ref)
  | append (event : Evt) : Apart (.append event)
  | busPublish (event : Evt) : Apart (.busPublish event)
  | snapshot (channel : String) : Apart (.snapshot channel)
  | checkClosed (ref : ℕ) : Apart (.checkClosed ref)
  | send (ref : ℕ) (event : Evt) : Apart (.send ref event)
  | takeAll : Apart .takeAll
  | unlock : Apart .unlock

abbrev KeepsApart {α : Type} (p : M α) : Prop := Prog.Uses Apart p

section Handlers

variable {cfg : ManagerConfig} {ctx rounds : ℕ} {req : SubscriptionRequest} {tr : Trace}
  {id : String}

theorem holds_cons {ev : Event Ans} {ref : ℕ} (h : holds (ev :: tr) = some (id,ref)) :
    (∃ client needSub, ev = ⟨.register client,.ok (ref,needSub)⟩ ∧ client.id = id) ∨
      holds tr = some (id,ref) := by
  unfold holds at h
  split at h
  · cases h
  · rename_i client ref' needSub tr' heq
    cases heq
    cases h
    exact .inl ⟨client,needSub,rfl,rfl⟩
  · cases h
  · rename_i heq
    cases heq
    exact .inr h

def Serving (id : String) (tr : Trace) : Prop := (∃ ref, holds tr = some (id,ref)) ∧ ensured tr = true

theorem handled_disconnect (h : ∃ ref, holds tr = some (id,ref)) :
    Prog.Meets (handled (.stream ctx req rounds)) (fun tr' _ => holds tr' = none) tr
      (disconnect id) := by
  simp only [disconnect,Prog.meets_bind,Prog.meets_perform]
  refine ⟨h,fun removed _ => ?_⟩
  cases removed with
  | none => rfl
  | some removed =>
    simp only [closeClient,Prog.meets_bind,Prog.meets_perform]
    refine ⟨trivial,fun first _ => ?_⟩
    cases first with
    | true => exact ⟨trivial,fun _ _ => rfl⟩
    | false => rfl

-- what Subscribe leaves behind
def Subscribed (tr : Trace) : Except GoError (Except GoError (ℕ × Client × List Evt)) → Prop
  | .ok (.ok (_,c,_)) => Serving c.id tr
  | _ => holds tr = none

theorem handled_withdraw (h : ∃ ref, holds tr = some (id,ref)) (err : GoError) :
    Prog.Meets (handled (.stream ctx req rounds)) Subscribed tr (withdraw id err) := by
  rw [withdraw,Prog.meets_bind]
  refine Prog.meets_mono ?_ (handled_disconnect h)
  rintro tr' (e | _) hnone
  · exact hnone
  · exact hnone

theorem handled_replaySince {ref : ℕ} (h : Serving id tr) :
    Prog.Meets (handled (.stream ctx req rounds)) Subscribed tr
      (replaySince cfg ref (newClient ctx req id)) := by
  simp only [replaySince,Prog.meets_bind,Prog.meets_perform]
  refine ⟨trivial,fun replay _ => ?_⟩
  cases replay with
  | error e =>
    refine handled_withdraw ?_ e
    exact h.1
  | ok events => exact h

theorem handled_ensureBusSubscription (h : ∃ ref, holds tr = some (id,ref)) :
    Prog.Meets (handled (.stream ctx req rounds)) (fun tr' r => match r with
      | Except.ok (Except.ok _) => Serving id tr'
      | Except.ok (Except.error _) => ∃ ref, holds tr' = some (id,ref)
      | Except.error _ => False) tr
      (ensureBusSubscription ctx (trimSpace req.channel)) := by
  simp only [ensureBusSubscription,Prog.meets_bind,Prog.meets_perform]
  refine ⟨rfl,fun existing _ => ?_⟩
  cases existing with
  | true => exact ⟨h,rfl⟩
  | false =>
    simp only [Bool.false_eq_true,if_false,Prog.meets_bind,Prog.meets_perform]
    refine ⟨trivial,fun sub _ => ?_⟩
    cases sub with
    | error e => exact h
    | ok sub =>
      refine ⟨⟨rfl,rfl⟩,fun recorded _ => ?_⟩
      cases recorded with
      | error e => exact h
      | ok => exact ⟨h,rfl⟩

theorem handled_chooseClientID (value : String) (h : holds tr = none) :
    Prog.Meets (handled (.stream ctx req rounds)) (fun tr' _ => holds tr' = none) tr
      (chooseClientID value) := by
  rw [chooseClientID]
  split_ifs
  · exact h
  · simp only [Prog.meets_bind,Prog.meets_perform,Prog.meets_pure]
    exact ⟨trivial,fun _ _ => h⟩

theorem handled_subscribe (h : holds tr = none) :
    Prog.Meets (handled (.stream ctx req rounds)) Subscribed tr (subscribe cfg ctx req) := by
  rw [subscribe]
  split_ifs
  · exact h
  rw [Prog.meets_bind]
  refine Prog.meets_mono ?_ (handled_chooseClientID req.clientID h)
  rintro tr' (e | id) hnone
  · exact hnone
  dsimp only
  rw [Prog.meets_bind,Prog.meets_perform]
  refine ⟨⟨rfl,rfl,hnone⟩,fun registered _ => ?_⟩
  cases registered with
  | error e => exact hnone
  | ok registered =>
    obtain ⟨ref,needSub⟩ := registered
    cases needSub with
    | true =>
      simp only [if_true]
      rw [Prog.meets_bind]
      refine Prog.meets_mono ?_ (handled_ensureBusSubscription ⟨ref,rfl⟩)
      rintro tr'' (e | e | _) hheld
      · cases hheld
      · exact handled_withdraw hheld e
      · exact handled_replaySince hheld
    | false => exact handled_replaySince ⟨⟨ref,rfl⟩,rfl⟩

theorem handled_serveClient {ref : ℕ} {replay : List Evt} {n : ℕ} :
    Prog.Preserves (handled (.stream ctx req rounds)) (Serving id) (serveClient ref ctx replay n) := by
  have hwrite : ∀ events, Prog.Preserves (handled (.stream ctx req rounds)) (Serving id)
      (writeReplay ref events) := by
    intro events
    induction events with
    | nil => exact .pure _
    | cons event events ih =>
      exact .step (fun _ h => h.2) (fun _ _ h => h) fun _ => .ite ih (.pure _)
  have hlisten : Prog.Preserves (handled (.stream ctx req rounds)) (Serving id) (listen ref ctx n) := by
    induction n with
    | zero => exact .step (fun _ h => h.2) (fun _ _ h => h) fun _ => .pure _
    | succ n ih =>
      refine .step (fun _ h => h.2) (fun _ _ h => h) fun wake => ?_
      cases wake with
      | done => exact .pure _
      | heartbeat written => exact .ite ih (.pure _)
      | event e => exact .step (fun _ h => h.2) (fun _ _ h => h) fun _ => .ite ih (.pure _)
  exact (hwrite replay).bind fun _ => .ite hlisten (.pure _)

-- no client is left, or its channel has a subscription
def Left (tr : Trace) : Prop := holds tr = none ∨ ensured tr = true

theorem handled_stream : Prog.Meets (handled (.stream ctx req rounds)) (fun tr _ => Left tr) []
    (stream cfg ctx req rounds) := by
  rw [stream,Prog.meets_bind]
  refine Prog.meets_mono ?_ (handled_subscribe rfl)
  rintro tr (e | e | ⟨ref,c,replay⟩) h
  · exact .inl h
  · simp only [Prog.meets_bind,Prog.meets_perform,Prog.meets_pure]
    exact ⟨h,fun _ _ => .inl h⟩
  · dsimp only
    rw [Prog.meets_bind]
    refine Prog.meets_mono ?_ (handled_serveClient tr h)
    rintro tr' (e | _) hserving
    · exact .inr hserving.2
    · dsimp only
      rw [Prog.meets_bind]
      refine Prog.meets_mono ?_ (handled_disconnect hserving.1)
      rintro tr'' (e | _) hnone
      · exact .inl hnone
      · simp only [Prog.meets_bind,Prog.meets_perform,Prog.meets_pure]
        exact ⟨hnone,fun _ _ => .inl hnone⟩

end Handlers

section Others

variable {cfg : ManagerConfig} {tr : Trace}

theorem apart_closeClient (ref : ℕ) : KeepsApart (closeClient ref) :=
  Prog.Obeys.step (fun _ => .beginClose ref) fun _ =>
    .ite (.perform fun _ => .closeEvents ref) (.pure _)

theorem apart_disconnect (id : String) : KeepsApart (disconnect id) := by
  refine Prog.Obeys.step (fun _ => .remove id) fun removed => ?_
  cases removed with
  | none => exact .pure none
  | some removed => exact .bind (apart_closeClient removed.1) fun _ => .pure _

theorem apart_enqueue (ref : ℕ) (event : Evt) : KeepsApart (enqueue ref event) := by
  refine Prog.Obeys.step (fun _ => .checkClosed ref) fun _ => .ite (.pure _) ?_
  refine Prog.Obeys.step (fun _ => .send ref event) fun result => ?_
  cases result with
  | sent => exact .pure _
  | full => exact .pure _
  | panicked => exact fun _ => trivial

theorem apart_deliver (event : Evt) : KeepsApart (deliver cfg event) := by
  refine Prog.Obeys.step (fun _ => .snapshot event.channel) fun clients => ?_
  induction clients with
  | nil => exact .pure ()
  | cons p clients ih =>
    obtain ⟨ref,c⟩ := p
    refine .ite (.bind (apart_enqueue ref event) fun queued => .ite ?_ ih) ih
    exact .bind (apart_disconnect c.id) fun _ => ih

theorem apart_publish (req : PublishRequest) : KeepsApart (publish cfg req) := by
  refine .ite (.pure _) (.step (fun _ => .nextEventID) fun stamp => ?_)
  refine .step (fun _ => .append _) fun appended => ?_
  cases appended with
  | error e => exact .pure _
  | ok =>
    refine .ite (.step (fun _ => .busPublish _) fun published => ?_)
      (.bind (apart_deliver _) fun _ => .pure _)
    cases published <;> exact .pure _

theorem apart_close : KeepsApart close := by
  have hclients : ∀ refs, KeepsApart (closeClients refs) := by
    intro refs
    induction refs with
    | nil => exact .pure ()
    | cons ref refs ih => exact .bind (apart_closeClient ref) fun _ => ih
  exact .step (fun _ => .takeAll) fun refs => .bind (hclients refs) fun _ =>
    .step (fun _ => .unlock) fun _ => .pure _

theorem handled_apart {α : Type} {p : M α} {call : Call} (h : KeepsApart p)
    (hcall : ∀ ctx req rounds, call ≠ .stream ctx req rounds) :
    Prog.Meets (handled call) (fun tr _ => Left tr) [] p := by
  refine Prog.meets_mono (fun _ _ hnone => .inl hnone)
    (h.meets (F := fun tr => holds tr = none) ?_ ?_ rfl)
  · intro tr op _ hop
    cases call with
    | stream ctx req rounds => exact absurd rfl (hcall ctx req rounds)
    | publish | forward | disconnect | close => cases hop <;> trivial
  · rintro ⟨op,ans⟩ tr hop hnone
    cases hop <;> first | exact hnone | rfl

theorem handled_program (call : Call) :
    Prog.Meets (handled call) (fun tr _ => Left tr) [] (program cfg call) := by
  cases call with
  | stream ctx req rounds => exact handled_stream
  | publish req => exact handled_apart (apart_publish req) (by simp)
  | forward event => exact handled_apart (.bind (apart_deliver event) fun _ => .pure _) (by simp)
  | disconnect id => exact handled_apart (apart_disconnect id) (by simp)
  | close => exact handled_apart apart_close (by simp)

end Others

end Nimburion.HTTP.SSE
