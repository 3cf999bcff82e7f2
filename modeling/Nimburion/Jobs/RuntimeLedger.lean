import Nimburion.Jobs.RuntimeBackend
import Mathlib.Data.List.Flatten

namespace Nimburion.Jobs.RuntimeBackend
open Interaction GoText GoTime

abbrev Trace := List (Event Ans)

def registers (ev : Event Ans) : Bool :=
  match ev.op with
  | .registerLease .. => true
  | _ => false

def replaces (ev : Event Ans) : Bool :=
  match ev.op with
  | .enqueue (some _) _ => true
  | _ => false

-- the settlers that hand the delivery over to a new job
def Settler.hands : Settler → Bool
  | .nack => true
  | .moveToDLQ => true
  | _ => false

def Popped (tr : Trace) (p : Settler → Bool) (state : LeaseState) : Prop :=
  ∃ settler token, p settler = true ∧ (⟨.popLease settler token,some state⟩ : Event Ans) ∈ tr

def Earned (tr : Trace) (delivery : ℕ) : Prop :=
  (∃ state, Popped tr (· = .ack) state ∧ state.delivery = delivery) ∨
    ∃ job, (⟨.enqueue (some delivery) job,.ok ()⟩ : Event Ans) ∈ tr

def Permitted (call : Call) (tr : Trace) : Op → Prop
  | .registerLease token state => (⟨.randomToken,token⟩ : Event Ans) ∈ tr ∧
      (∃ sub, (⟨.receive sub,.ok (state.delivery,some state.job)⟩ : Event Ans) ∈ tr) ∧
      tr.any registers = false
  | .enqueue (some delivery) job => (∃ state, Popped tr Settler.hands state ∧
      state.delivery = delivery ∧ job.work = state.job.work) ∧ tr.any replaces = false
  | .enqueue none job => call = .enqueue job
  | .complete delivery none => Earned tr delivery
  | _ => True

def discipline (call : Call) : Spec Ans := ⟨Permitted call,fun _ _ => True⟩

def Returned : Call → Trace → Except GoError Reply → Prop
  | .handle sub job, tr, .ok _ => ∃ delivery, (⟨.offer sub job,.ok delivery⟩ : Event Ans) ∈ tr ∧
      (⟨.await sub delivery,.ok none⟩ : Event Ans) ∈ tr
  | _, _, _ => True

theorem work_retryJob (job : Job) (reason : Option GoError) (failedAt runAt : Time) :
    (retryJob job reason failedAt runAt).work = job.work := rfl

theorem work_dlqJob (b : Config) (job : Job) (queue : String) (reason : Option GoError)
    (failedAt : Time) : (dlqJob b job queue reason failedAt).work = job.work := rfl

section Discipline

variable {call : Call} {α : Type} {post : Trace → Except GoError α → Prop} {tr : Trace}

theorem meets_popLease {settler : Settler} {lease : Option Lease}
    {post : Trace → Except GoError LeaseState → Prop}
    (hfail : ∀ tr e, post tr (.error e))
    (hok : ∀ token state, post (⟨.popLease settler token,some state⟩ :: tr) (.ok state)) :
    Prog.Meets (discipline call) post tr (popLease settler lease) := by
  cases lease with
  | none => exact hfail _ _
  | some lease =>
    simp only [popLease,Prog.meets_ite,Prog.meets_fail,Prog.meets_bind,Prog.meets_perform]
    refine ⟨fun _ => hfail _ _,fun _ => ⟨trivial,?_⟩⟩
    rintro (_ | state) _
    · exact hfail _ _
    · exact hok _ state

theorem meets_now {post : Trace → Except GoError Time → Prop}
    (h : ∀ t, post (⟨.now,t⟩ :: tr) (.ok t)) : Prog.Meets (discipline call) post tr now := by
  exact ⟨trivial,fun t _ => h t⟩

theorem meets_orNow {t : Time} {post : Trace → Except GoError Time → Prop}
    (hold : ∀ t, post tr (.ok t)) (h : ∀ t, post (⟨.now,t⟩ :: tr) (.ok t)) :
    Prog.Meets (discipline call) post tr (orNow t) := by
  simp only [orNow,Prog.meets_ite,Prog.meets_pure]
  exact ⟨fun _ => meets_now h,fun _ => hold t⟩

theorem meets_replace {delivery : ℕ} {job : Job} {msg : String}
    {post : Trace → Except GoError Unit → Prop}
    (hpre : Permitted call tr (.enqueue (some delivery) job)) (hpost : ∀ tr r, post tr r) :
    Prog.Meets (discipline call) post tr (replace delivery job msg) := by
  simp only [replace,Prog.meets_bind,Prog.meets_perform]
  refine ⟨hpre,?_⟩
  rintro (e | ⟨⟩) _
  · simp only [complete,Prog.meets_bind,Prog.meets_fail]
    exact ⟨trivial,fun _ _ => hpost _ _⟩
  · refine ⟨.inr ⟨job,?_⟩,fun _ _ => hpost _ _⟩
    exact List.mem_cons_self

theorem meets_waitUntil {runAt : Time} {post : Trace → Except GoError (Except GoError Unit) → Prop}
    (hstep : ∀ now, post (⟨.now,now⟩ :: tr) (.ok (.ok ())))
    (hsleep : ∀ now delay r, post (⟨.sleep delay,r⟩ :: ⟨.now,now⟩ :: tr) (.ok r)) :
    Prog.Meets (discipline call) post tr (waitUntil runAt) := by
  simp only [waitUntil,Prog.meets_bind]
  refine meets_now fun t => ?_
  simp only [Prog.meets_ite,Prog.meets_pure]
  exact ⟨fun _ => ⟨trivial,fun r _ => hsleep t _ r⟩,fun _ => hstep t⟩

theorem meets_releaseLeases {leases : List (String × LeaseState)}
    {post : Trace → Except GoError Unit → Prop} (hpost : ∀ tr r, post tr r) :
    Prog.Meets (discipline call) post tr (releaseLeases leases) := by
  induction leases generalizing tr with
  | nil => exact hpost _ _
  | cons e leases ih =>
    simp only [releaseLeases,complete,Prog.meets_bind]
    exact ⟨trivial,fun _ _ => ⟨trivial,fun _ _ => ih⟩⟩

theorem meets_unsubscribeAll {subs : List (String × ℕ)}
    {post : Trace → Except GoError (List GoError) → Prop} (hpost : ∀ tr r, post tr r) :
    Prog.Meets (discipline call) post tr (unsubscribeAll subs) := by
  induction subs generalizing tr post with
  | nil => exact hpost _ _
  | cons e subs ih =>
    simp only [unsubscribeAll,Prog.meets_bind,Prog.meets_perform]
    refine ⟨trivial,fun _ _ => ⟨trivial,fun r _ => ih ?_⟩⟩
    rintro tr (e | errs)
    · exact hpost _ _
    · cases r <;> exact hpost _ _

theorem meets_ensureSubscription {queue : String} {post : Trace → Except GoError ℕ → Prop}
    (hfail : ∀ tr e, post tr (.error e))
    (hok : ∀ sub tr', tr'.any registers = tr.any registers → post tr' (.ok sub)) :
    Prog.Meets (discipline call) post tr (ensureSubscription queue) := by
  simp only [ensureSubscription,Prog.meets_bind,Prog.meets_perform]
  refine ⟨trivial,?_⟩
  rintro (e | sub | sub) _
  · exact hfail _ _
  · exact hok sub _ rfl
  · simp only [Prog.meets_bind,Prog.meets_perform]
    refine ⟨trivial,?_⟩
    rintro (e | ⟨⟩) _
    · simp only [Prog.meets_bind,Prog.meets_fail]
      exact ⟨trivial,fun _ _ => ⟨trivial,fun _ _ => hfail _ _⟩⟩
    · exact hok sub _ rfl

theorem meets_lease {queue : String} {leaseFor : Duration} {delivery sub : ℕ} {job : Job}
    {post : Trace → Except GoError (Job × Lease) → Prop}
    (hgot : (⟨.receive sub,.ok (delivery,some job)⟩ : Event Ans) ∈ tr)
    (hnone : tr.any registers = false) (hpost : ∀ tr r, post tr r) :
    Prog.Meets (discipline call) post tr (lease queue leaseFor delivery job) := by
  simp only [lease,Prog.meets_bind,Prog.meets_perform]
  refine ⟨trivial,fun token _ => meets_now fun t => ?_⟩
  refine ⟨trivial,fun timer _ => ?_⟩
  refine ⟨⟨by simp,⟨sub,by simp [hgot]⟩,?_⟩,fun registered _ => ?_⟩
  · simpa [registers] using hnone
  · cases registered <;>
      simp only [complete,if_true,Bool.false_eq_true,if_false,Prog.meets_pure,Prog.meets_bind,
        Prog.meets_fail]
    · exact ⟨trivial,fun _ _ => ⟨trivial,fun _ _ => hpost _ _⟩⟩
    · exact hpost _ _

theorem meets_reserve {queue : String} {leaseFor : Duration}
    {post : Trace → Except GoError (Job × Lease) → Prop} (hpost : ∀ tr r, post tr r) :
    Prog.Meets (discipline call) post [] (reserve queue leaseFor) := by
  simp only [reserve,Prog.meets_ite,Prog.meets_fail]
  refine ⟨fun _ => hpost _ _,fun _ => ?_⟩
  simp only [Prog.meets_bind]
  refine meets_ensureSubscription (fun _ _ => hpost _ _) fun sub tr hnone => ?_
  refine ⟨trivial,?_⟩
  rintro (e | ⟨delivery,_ | job⟩) _
  · exact hpost _ _
  · exact hpost _ _
  · exact meets_lease List.mem_cons_self (by simpa [registers] using hnone) hpost

theorem meets_finishNack (token : String) (waited : Except GoError Unit) {state : LeaseState}
    {reason : Option GoError} {failedAt runAt : Time} {post : Trace → Except GoError Unit → Prop}
    (hpop : (⟨.popLease .nack token,some state⟩ : Event Ans) ∈ tr)
    (hnone : tr.any replaces = false) (hpost : ∀ tr r, post tr r) :
    Prog.Meets (discipline call) post tr (match waited with
      | .error e => do
          complete state.delivery (some e)
          Prog.fail e
      | .ok _ =>
          replace state.delivery (retryJob state.job reason failedAt runAt)
            "enqueue retry job failed") := by
  cases waited with
  | error e =>
    simp only [complete,Prog.meets_bind,Prog.meets_fail]
    exact ⟨trivial,fun _ _ => hpost _ _⟩
  | ok u => exact meets_replace ⟨⟨state,⟨.nack,token,rfl,hpop⟩,rfl,work_retryJob _ _ _ _⟩,hnone⟩ hpost

theorem meets_nack {lease : Option Lease} {nextRunAt : Time} {reason : Option GoError}
    {post : Trace → Except GoError Unit → Prop} (hpost : ∀ tr r, post tr r) :
    Prog.Meets (discipline call) post [] (nack lease nextRunAt reason) := by
  simp only [nack,Prog.meets_bind]
  refine meets_popLease (fun _ _ => hpost _ _) fun token state => ?_
  refine meets_now fun failedAt => ?_
  refine meets_orNow (fun runAt => ?_) fun runAt => ?_
  · refine meets_waitUntil (fun now => ?_) fun now delay r => ?_
    · exact meets_finishNack token (.ok ()) (by simp) rfl hpost
    · exact meets_finishNack token r (by simp) rfl hpost
  · refine meets_waitUntil (fun now => ?_) fun now delay r => ?_
    · exact meets_finishNack token (.ok ()) (by simp) rfl hpost
    · exact meets_finishNack token r (by simp) rfl hpost

theorem program_meets (b : Config) (call : Call) :
    Prog.Meets (discipline call) (Returned call) [] (program b call) := by
  cases call with
  | enqueue job =>
    simp only [program,enqueue,Prog.meets_bind,Prog.meets_perform,Prog.meets_liftExcept]
    refine ⟨rfl,?_⟩
    rintro (e | ⟨⟩) _ <;> trivial
  | reserve queue leaseFor =>
    simp only [program,Prog.meets_bind]
    refine meets_reserve ?_
    rintro tr (e | r) <;> trivial
  | ack lease =>
    simp only [program,ack,complete,Prog.meets_bind]
    refine meets_popLease (fun _ _ => trivial) fun token state => ?_
    refine ⟨.inl ⟨state,⟨.ack,token,rfl,List.mem_cons_self⟩,rfl⟩,fun _ _ => trivial⟩
  | nack lease nextRunAt reason =>
    simp only [program,Prog.meets_bind]
    refine meets_nack ?_
    rintro tr (e | ⟨⟩) <;> trivial
  | renew lease leaseFor =>
    cases lease with
    | none => trivial
    | some lease =>
      simp only [program,renew,Prog.meets_bind,Prog.meets_ite,Prog.meets_fail,Prog.meets_perform]
      exact ⟨fun _ => trivial,fun _ => ⟨trivial,fun renewed _ =>
        ⟨fun _ => trivial,fun _ => trivial⟩⟩⟩
  | moveToDLQ lease reason =>
    simp only [program,moveToDLQ,Prog.meets_bind]
    refine meets_popLease (fun _ _ => trivial) fun token state => ?_
    refine meets_now fun failedAt => ?_
    refine meets_replace ⟨⟨state,⟨.moveToDLQ,token,rfl,by simp⟩,rfl,work_dlqJob _ _ _ _ _⟩,rfl⟩ ?_
    rintro tr (e | ⟨⟩) <;> trivial
  | healthCheck =>
    simp only [program,healthCheck,Prog.meets_bind,Prog.meets_perform,Prog.meets_liftExcept]
    refine ⟨trivial,?_⟩
    rintro (e | ⟨⟩) _ <;> trivial
  | close =>
    simp only [program,close,Prog.meets_bind,Prog.meets_perform]
    refine ⟨trivial,?_⟩
    rintro (_ | ⟨subs,leases⟩) _
    · trivial
    · simp only [Prog.meets_bind]
      refine meets_releaseLeases ?_
      rintro tr (e | ⟨⟩)
      · trivial
      · refine meets_unsubscribeAll ?_
        rintro tr (e | errs)
        · trivial
        · simp only [closeRuntime,Prog.meets_ite,Prog.meets_bind,Prog.meets_perform,
            Prog.meets_pure]
          refine ⟨fun _ => ⟨trivial,?_⟩,fun _ => ?_⟩
          · rintro (e | ⟨⟩) _
            · cases errs <;> trivial
            · cases errs <;> trivial
          · cases errs <;> trivial
  | expireLease timer =>
    simp only [program,expireLease,Prog.meets_bind,Prog.meets_perform]
    refine ⟨trivial,fun token _ => ⟨trivial,?_⟩⟩
    rintro (_ | state) _
    · trivial
    · exact ⟨trivial,fun _ _ => trivial⟩
  | handle sub job =>
    simp only [program,handle,Prog.meets_bind,Prog.meets_perform]
    refine ⟨trivial,?_⟩
    rintro (e | delivery) _
    · trivial
    · simp only [Prog.meets_bind,Prog.meets_perform]
      refine ⟨trivial,?_⟩
      rintro (e | _ | e) _
      · trivial
      · exact ⟨delivery,by simp,by simp⟩
      · trivial

end Discipline

abbrev Entry := String × ℕ × Job

structure Ledger where
  entries : List Entry
  waiting : List ℕ
  deliveries : List Delivery
  effects : List Effect
  issued : List String

def entry (e : String × LeaseState) : Entry := (e.1,e.2.delivery,e.2.job)

def Heap.ledger (s : Heap) : Ledger where
  entries := s.leases.map entry
  waiting := s.subs.flatMap (·.deliveries)
  deliveries := s.deliveries
  effects := s.effects
  issued := s.issued

def closeEffect (e : String × LeaseState) : Effect := .settled .close e.1 e.2.delivery

def loud : Event Ans → Bool
  | ⟨.randomToken,_⟩ => true
  | ⟨.receive _,.ok _⟩ => true
  | ⟨.registerLease ..,_⟩ => true
  | ⟨.popLease ..,some _⟩ => true
  | ⟨.close,some _⟩ => true
  | ⟨.complete ..,_⟩ => true
  | ⟨.enqueue (some _) _,_⟩ => true
  | ⟨.offer ..,.ok _⟩ => true
  | ⟨.await ..,.ok _⟩ => true
  | _ => false

-- what an operation can do to the deliveries; all else in the heap is bookkeeping
inductive LedgerStep (l : Ledger) : Event Ans → Ledger → Prop
  | quiet {ev : Event Ans} (hev : loud ev = false) : LedgerStep l ev l
  | issue (t : String) (fresh : t ∉ l.issued) :
      LedgerStep l ⟨.randomToken,t⟩ { l with issued := t :: l.issued }
  | receive (sub d : ℕ) (delivery : Delivery) (waiting : List ℕ)
      (hwait : l.waiting.Perm (d :: waiting)) (hget : l.deliveries[d]? = some delivery) :
      LedgerStep l ⟨.receive sub,.ok (d,delivery.job)⟩ { l with waiting := waiting }
  | refuse (token : String) (state : LeaseState) :
      LedgerStep l ⟨.registerLease token state,false⟩ l
  | register (token : String) (state : LeaseState) :
      LedgerStep l ⟨.registerLease token state,true⟩ { l with
        entries := entry (token,state) :: l.entries.filter fun e => e.1 ≠ token }
  | pop (settler : Settler) (token : String) (state : LeaseState)
      (hmem : entry (token,state) ∈ l.entries) :
      LedgerStep l ⟨.popLease settler token,some state⟩ { l with
        entries := l.entries.filter fun e => e.1 ≠ token
        effects := .settled settler token state.delivery :: l.effects }
  | close (subs : List (String × ℕ)) (leases : List (String × LeaseState))
      (hperm : (leases.map entry).Perm l.entries) :
      LedgerStep l ⟨.close,some (subs,leases)⟩ { l with
        entries := []
        effects := leases.map closeEffect ++ l.effects }
  | complete (d : ℕ) (err : Option GoError) :
      LedgerStep l ⟨.complete d err,()⟩ { l with
        deliveries := l.deliveries.modify d fun x => { x with done := x.done.or (some err) } }
  | enqueue (d : ℕ) (job : Job) (r : Except GoError Unit) :
      LedgerStep l ⟨.enqueue (some d) job,r⟩ { l with effects := .replaced d job :: l.effects }
  | enqueueFailed (d : ℕ) (job : Job) (e : GoError) :
      LedgerStep l ⟨.enqueue (some d) job,.error e⟩ l
  | offer (sub : ℕ) (job : Option Job) (waiting : List ℕ)
      (hwait : waiting.Perm (l.deliveries.length :: l.waiting)) :
      LedgerStep l ⟨.offer sub job,.ok l.deliveries.length⟩ { l with
        waiting := waiting
        deliveries := l.deliveries ++ [⟨job,none⟩] }
  | await (sub d : ℕ) (delivery : Delivery) (result : Option GoError)
      (hget : l.deliveries[d]? = some delivery) (hdone : delivery.done = some result) :
      LedgerStep l ⟨.await sub d,.ok result⟩ l

section Refinement

variable {b : Config} {s s' : Heap} {op : Op} {o : Outcome}

theorem map_entry_filter (leases : List (String × LeaseState)) (token : String) :
    (leases.filter fun e => e.1 ≠ token).map entry =
      (leases.map entry).filter fun e => e.1 ≠ token := by
  rw [List.filter_map]
  rfl

theorem flatMap_modify (subs : List Subscription) (i : ℕ) :
    (subs.modify i fun u => { u with cancelled := true }).flatMap (·.deliveries) =
      subs.flatMap (·.deliveries) := by
  induction subs generalizing i with
  | nil => simp
  | cons u subs ih =>
    cases i with
    | zero => simp
    | succ i => simp [ih]

theorem flatMap_set_perm {subs : List Subscription} {i : ℕ} {u : Subscription} (u' : Subscription)
    (hu : subs[i]? = some u) : ∃ rest,
    (subs.flatMap (·.deliveries)).Perm (u.deliveries ++ rest) ∧
    ((subs.set i u').flatMap (·.deliveries)).Perm (u'.deliveries ++ rest) := by
  obtain ⟨hi,rfl⟩ := List.getElem?_eq_some_iff.mp hu
  refine ⟨(subs.eraseIdx i).flatMap (·.deliveries),?_,?_⟩
  · simpa using ((List.getElem_cons_eraseIdx_perm hi).flatMap_right (·.deliveries)).symm
  · simpa using (List.set_perm_cons_eraseIdx hi u').flatMap_right (·.deliveries)

theorem ledger_quiet {ans : Ans op} (hev : loud ⟨op,ans⟩ = false) (hs : s'.ledger = s.ledger) :
    LedgerStep s.ledger ⟨op,ans⟩ s'.ledger := hs ▸ .quiet hev

theorem ledger_reply {ans : Except GoError Unit} (h : reply s o = some (ans,s')) : s' = s := by
  cases o <;> simp only [reply,Option.some.injEq,Prod.mk.injEq,reduceCtorEq] at h
  all_goals exact h.2.symm

theorem ledger_renewLease (token : String) (leaseFor : Duration) (now : Time) :
    (s.renewLease token leaseFor now).2.ledger = s.ledger := by
  unfold Heap.renewLease
  cases hlook : s.leases.lookup token with
  | none => rfl
  | some state =>
    simp only [Heap.ledger,Heap.startTimer,Heap.stopTimer,List.map_map,Ledger.mk.injEq,and_true]
    refine List.map_congr_left fun e _ => ?_
    simp only [Function.comp]
    split_ifs <;> rfl

theorem ledger_popLease {settler : Settler} {token : String} {ans : Option LeaseState}
    (h : s.popLease settler token = (ans,s')) :
    LedgerStep s.ledger ⟨.popLease settler token,ans⟩ s'.ledger := by
  unfold Heap.popLease at h
  cases hlook : s.leases.lookup token with
  | none =>
    simp only [hlook,Prod.mk.injEq] at h
    obtain ⟨rfl,rfl⟩ := h
    exact .quiet rfl
  | some state =>
    simp only [hlook,Prod.mk.injEq] at h
    obtain ⟨rfl,rfl⟩ := h
    have hmem : entry (token,state) ∈ s.ledger.entries := by
      obtain ⟨l₁,l₂,hl,_⟩ := List.lookup_eq_some_iff.mp hlook
      exact List.mem_map_of_mem (by simp [hl])
    have hstep := LedgerStep.pop settler token state hmem
    have hledger : (if settler = .expiry then { s.dropLease token with
        effects := .settled settler token state.delivery :: s.effects } else Heap.stopTimer
        { s.dropLease token with
          effects := .settled settler token state.delivery :: s.effects } state.timer).ledger =
        { s.ledger with
          entries := s.ledger.entries.filter fun e => e.1 ≠ token
          effects := .settled settler token state.delivery :: s.ledger.effects } := by
      split_ifs
      all_goals simp only [Heap.ledger,Heap.stopTimer,Heap.dropLease,map_entry_filter]
    rw [hledger]
    exact hstep

theorem ledger_receive {sub : ℕ} {ans : Ans (.receive sub)}
    (h : exec b s (.receive sub) o = some (ans,s')) :
    LedgerStep s.ledger ⟨.receive sub,ans⟩ s'.ledger := by
  cases o <;> simp only [exec,Option.some.injEq,Prod.mk.injEq,reduceCtorEq] at h
  · cases hu : s.subs[sub]? with
    | none => simp [hu] at h
    | some u =>
      cases hd : u.deliveries with
      | nil => simp [hu,hd] at h
      | cons d ds =>
        cases hx : s.deliveries[d]? with
        | none => simp [hu,hd,hx] at h
        | some delivery =>
          simp only [hu,hd,hx,Option.some.injEq,Prod.mk.injEq] at h
          obtain ⟨rfl,rfl⟩ := h
          obtain ⟨rest,hold,hnew⟩ := flatMap_set_perm { u with deliveries := ds } hu
          refine .receive sub d delivery _ ?_ hx
          rw [hd] at hold
          exact hold.trans ((hnew.symm.cons d))
  · obtain ⟨rfl,rfl⟩ := h
    exact .quiet rfl

theorem ledger_offer {sub : ℕ} {job : Option Job} {ans : Ans (.offer sub job)}
    (h : exec b s (.offer sub job) o = some (ans,s')) :
    LedgerStep s.ledger ⟨.offer sub job,ans⟩ s'.ledger := by
  simp only [exec] at h
  cases hu : s.subs[sub]? with
  | none => simp [hu] at h
  | some u =>
    cases o <;> simp only [hu,Option.ite_none_right_eq_some,Option.some.injEq,Prod.mk.injEq,
      reduceCtorEq] at h
    · obtain ⟨_,rfl,rfl⟩ := h
      obtain ⟨rest,hold,hnew⟩ := flatMap_set_perm
        { u with deliveries := u.deliveries ++ [s.deliveries.length] } hu
      refine .offer sub job _ ?_
      have hmid : (u.deliveries ++ [s.deliveries.length] ++ rest).Perm
          (s.deliveries.length :: (u.deliveries ++ rest)) := by simp
      exact hnew.trans (hmid.trans (hold.symm.cons _))
    · obtain ⟨rfl,rfl⟩ := h
      exact .quiet rfl

theorem ledger_await {sub delivery : ℕ} {ans : Ans (.await sub delivery)}
    (h : exec b s (.await sub delivery) o = some (ans,s')) :
    LedgerStep s.ledger ⟨.await sub delivery,ans⟩ s'.ledger := by
  cases o <;> simp only [exec,Option.some.injEq,Prod.mk.injEq,reduceCtorEq] at h
  · cases hx : s.deliveries[delivery]? with
    | none => simp [hx] at h
    | some d =>
      cases hd : d.done with
      | none => simp [hx,hd] at h
      | some result =>
        simp only [hx,hd,Option.some.injEq,Prod.mk.injEq] at h
        obtain ⟨rfl,rfl⟩ := h
        exact .await sub delivery d result hx hd
  · obtain ⟨rfl,rfl⟩ := h
    exact .quiet rfl

theorem ledger_exec {ans : Ans op} (h : exec b s op o = some (ans,s')) :
    LedgerStep s.ledger ⟨op,ans⟩ s'.ledger := by
  cases op with
  | now =>
    cases o <;> simp only [exec,Option.some.injEq,Prod.mk.injEq,reduceCtorEq] at h
    exact ledger_quiet rfl (h.2 ▸ rfl)
  | randomToken =>
    cases o <;> simp only [exec,Option.ite_none_right_eq_some,Option.some.injEq,Prod.mk.injEq,
      reduceCtorEq] at h
    obtain ⟨⟨_,hfresh⟩,rfl,rfl⟩ := h
    exact .issue _ hfresh
  | lookupSubscription queue =>
    simp only [exec] at h
    split_ifs at h
    · obtain ⟨rfl,rfl⟩ := Prod.mk.inj (Option.some.inj h)
      exact .quiet rfl
    · cases hsub : s.subscriptions.lookup queue with
      | some sub =>
        simp only [hsub,Option.some.injEq,Prod.mk.injEq] at h
        obtain ⟨rfl,rfl⟩ := h
        exact .quiet rfl
      | none =>
        simp only [hsub,Option.some.injEq,Prod.mk.injEq] at h
        obtain ⟨rfl,rfl⟩ := h
        exact ledger_quiet rfl (by simp [Heap.ledger])
  | subscribe sub queue => exact ledger_quiet rfl (by rw [ledger_reply h])
  | cancel sub =>
    simp only [exec,Option.some.injEq,Prod.mk.injEq,true_and] at h
    subst h
    exact ledger_quiet rfl (by simp [Heap.ledger,flatMap_modify])
  | dropSubscription queue =>
    simp only [exec,Option.some.injEq,Prod.mk.injEq,true_and] at h
    subst h
    exact ledger_quiet rfl rfl
  | receive sub => exact ledger_receive h
  | afterFunc leaseFor token =>
    simp only [exec,Option.some.injEq,Prod.mk.injEq] at h
    obtain ⟨rfl,rfl⟩ := h
    exact ledger_quiet rfl rfl
  | stopTimer timer =>
    simp only [exec,Option.some.injEq,Prod.mk.injEq,true_and] at h
    subst h
    exact ledger_quiet rfl rfl
  | fire timer =>
    simp only [exec] at h
    cases ht : s.timers[timer]? with
    | none => simp [ht] at h
    | some t =>
      simp only [ht,Option.ite_none_right_eq_some,Option.some.injEq,Prod.mk.injEq] at h
      obtain ⟨_,rfl,rfl⟩ := h
      exact ledger_quiet rfl rfl
  | registerLease token state =>
    simp only [exec] at h
    split_ifs at h
    · obtain ⟨rfl,rfl⟩ := Prod.mk.inj (Option.some.inj h)
      exact .refuse token state
    · obtain ⟨rfl,rfl⟩ := Prod.mk.inj (Option.some.inj h)
      have hstep := LedgerStep.register (l := s.ledger) token state
      simpa only [Heap.ledger,List.map_cons,map_entry_filter] using hstep
  | popLease settler token => exact ledger_popLease (Option.some.inj h)
  | renewLease token leaseFor =>
    cases o <;> simp only [exec,Option.some.injEq,reduceCtorEq] at h
    rename_i t
    have hledger := ledger_renewLease (s := s) token leaseFor t
    rw [h] at hledger
    exact ledger_quiet rfl hledger
  | close =>
    simp only [exec] at h
    split_ifs at h
    · obtain ⟨rfl,rfl⟩ := Prod.mk.inj (Option.some.inj h)
      exact .quiet rfl
    · cases o <;> simp only [Option.ite_none_right_eq_some,Option.some.injEq,Prod.mk.injEq,
        reduceCtorEq] at h
      obtain ⟨⟨_,hperm⟩,rfl,rfl⟩ := h
      exact .close _ _ (hperm.map entry)
  | complete delivery err =>
    simp only [exec,Option.some.injEq,Prod.mk.injEq,true_and] at h
    subst h
    exact .complete delivery err
  | sleep delay => exact ledger_quiet rfl (by rw [ledger_reply h])
  | enqueue replaced job =>
    cases replaced with
    | none =>
      cases o <;> simp only [exec,Option.some.injEq,Prod.mk.injEq,reduceCtorEq] at h
      all_goals
        obtain ⟨rfl,rfl⟩ := h
        exact ledger_quiet rfl rfl
    | some d =>
      cases o <;> simp only [exec,Option.some.injEq,Prod.mk.injEq,reduceCtorEq] at h
      · obtain ⟨rfl,rfl⟩ := h
        exact .enqueue d job _
      · obtain ⟨rfl,rfl⟩ := h
        exact .enqueueFailed d job _
      · obtain ⟨rfl,rfl⟩ := h
        exact .enqueue d job _
  | unsubscribe queue => exact ledger_quiet rfl (by rw [ledger_reply h])
  | closeRuntime => exact ledger_quiet rfl (by rw [ledger_reply h])
  | healthCheck => exact ledger_quiet rfl (by rw [ledger_reply h])
  | offer sub job => exact ledger_offer h
  | await sub delivery => exact ledger_await h

end Refinement

end Nimburion.Jobs.RuntimeBackend
