import Nimburion.Jobs.RuntimeLedger

namespace Nimburion.Jobs.RuntimeBackend
open Interaction GoText GoTime

section Watching

-- the leases with their timers; all else in the heap does not bear on expiry
structure Watch where
  closed : Bool
  leases : List (String × ℕ)
  timers : List Timer
  issued : List String

def Heap.watch (s : Heap) : Watch where
  closed := s.closed
  leases := s.leases.map fun e => (e.1,e.2.timer)
  timers := s.timers
  issued := s.issued

def disarm (t : Timer) : Timer := { t with armed := false }

def watched : Event Ans → Bool
  | ⟨.randomToken,_⟩ => true
  | ⟨.afterFunc ..,_⟩ => true
  | ⟨.stopTimer _,_⟩ => true
  | ⟨.fire _,_⟩ => true
  | ⟨.registerLease ..,_⟩ => true
  | ⟨.popLease ..,_⟩ => true
  | ⟨.renewLease ..,_⟩ => true
  | ⟨.close,some _⟩ => true
  | _ => false

inductive WatchStep (w : Watch) : Event Ans → Watch → Prop
  | quiet {ev : Event Ans} (hev : watched ev = false) : WatchStep w ev w
  | issue (token : String) (fresh : token ∉ w.issued) :
      WatchStep w ⟨.randomToken,token⟩ { w with issued := token :: w.issued }
  | arm (leaseFor : Duration) (token : String) :
      WatchStep w ⟨.afterFunc leaseFor token,w.timers.length⟩ { w with
        timers := w.timers ++ [⟨token,leaseFor,true⟩] }
  | stop (timer : ℕ) :
      WatchStep w ⟨.stopTimer timer,()⟩ { w with timers := w.timers.modify timer disarm }
  | fire (timer : ℕ) (t : Timer) (there : w.timers[timer]? = some t) (armed : t.armed = true)
      (due : t.left ≤ 0) :
      WatchStep w ⟨.fire timer,t.token⟩ { w with timers := w.timers.modify timer disarm }
  | refuse (token : String) (state : LeaseState) (shut : w.closed = true) :
      WatchStep w ⟨.registerLease token state,false⟩ w
  | register (token : String) (state : LeaseState) (up : w.closed = false) :
      WatchStep w ⟨.registerLease token state,true⟩ { w with
        leases := (token,state.timer) :: w.leases.filter fun e => e.1 ≠ token }
  | miss (settler : Settler) (token : String) (none_ : ∀ e ∈ w.leases, e.1 ≠ token) :
      WatchStep w ⟨.popLease settler token,none⟩ w
  | pop (settler : Settler) (token : String) (state : LeaseState)
      (there : (token,state.timer) ∈ w.leases) :
      WatchStep w ⟨.popLease settler token,some state⟩ { w with
        leases := w.leases.filter fun e => e.1 ≠ token
        timers := if settler = .expiry then w.timers else w.timers.modify state.timer disarm }
  | lost (token : String) (leaseFor : Duration) (none_ : ∀ e ∈ w.leases, e.1 ≠ token) :
      WatchStep w ⟨.renewLease token leaseFor,false⟩ w
  | renew (token : String) (leaseFor : Duration) (timer : ℕ)
      (there : (token,timer) ∈ w.leases) :
      WatchStep w ⟨.renewLease token leaseFor,true⟩ { w with
        leases := w.leases.map fun e => if e.1 = token then (e.1,w.timers.length) else e
        timers := w.timers.modify timer disarm ++ [⟨token,leaseFor,true⟩] }
  | close (taken : List (String × ℕ) × List (String × LeaseState)) :
      WatchStep w ⟨.close,some taken⟩ { w with closed := true, leases := [] }

variable {b : Config} {s s' : Heap} {op : Op} {o : Outcome}

theorem watch_leases_filter (leases : List (String × LeaseState)) (token : String) :
    (leases.filter fun e => e.1 ≠ token).map (fun e => (e.1,e.2.timer)) =
      (leases.map fun e => (e.1,e.2.timer)).filter fun e => e.1 ≠ token := by
  rw [List.filter_map]
  rfl

theorem watch_quiet {ans : Ans op} (hev : watched ⟨op,ans⟩ = false) (hs : s'.watch = s.watch) :
    WatchStep s.watch ⟨op,ans⟩ s'.watch := hs ▸ .quiet hev

theorem lookup_none_keys {token : String} (h : s.leases.lookup token = none) :
    ∀ e ∈ s.watch.leases, e.1 ≠ token := by
  intro e he heq
  obtain ⟨f,hf,rfl⟩ := List.mem_map.mp he
  have := List.lookup_eq_none_iff.mp h f hf
  simp [show f.1 = token from heq] at this

theorem lookup_some_mem {leases : List (String × LeaseState)} {token : String} {state : LeaseState}
    (h : leases.lookup token = some state) : (token,state) ∈ leases := by
  obtain ⟨l₁,l₂,hl,_⟩ := List.lookup_eq_some_iff.mp h
  simp [hl]

theorem watch_popLease {settler : Settler} {token : String} {ans : Option LeaseState}
    (h : s.popLease settler token = (ans,s')) :
    WatchStep s.watch ⟨.popLease settler token,ans⟩ s'.watch := by
  unfold Heap.popLease at h
  cases hlook : s.leases.lookup token with
  | none =>
    simp only [hlook,Prod.mk.injEq] at h
    obtain ⟨rfl,rfl⟩ := h
    exact .miss settler token (lookup_none_keys hlook)
  | some state =>
    simp only [hlook,Prod.mk.injEq] at h
    obtain ⟨rfl,rfl⟩ := h
    have hmem : (token,state.timer) ∈ s.watch.leases :=
      List.mem_map.mpr ⟨_,lookup_some_mem hlook,rfl⟩
    have hstep := WatchStep.pop settler token state hmem
    by_cases he : settler = .expiry
    · simpa only [he,if_true,Heap.watch,Heap.dropLease,watch_leases_filter] using hstep
    · simp only [he,if_false,Heap.watch,Heap.dropLease,Heap.stopTimer,watch_leases_filter] at hstep ⊢
      exact hstep

theorem watch_renewLease {token : String} {leaseFor : Duration} {now : Time} {ans : Bool}
    (h : s.renewLease token leaseFor now = (ans,s')) :
    WatchStep s.watch ⟨.renewLease token leaseFor,ans⟩ s'.watch := by
  unfold Heap.renewLease at h
  cases hlook : s.leases.lookup token with
  | none =>
    simp only [hlook,Prod.mk.injEq] at h
    obtain ⟨rfl,rfl⟩ := h
    exact .lost token leaseFor (lookup_none_keys hlook)
  | some state =>
    simp only [hlook,Prod.mk.injEq] at h
    obtain ⟨rfl,rfl⟩ := h
    have hmem : (token,state.timer) ∈ s.watch.leases :=
      List.mem_map.mpr ⟨_,lookup_some_mem hlook,rfl⟩
    have hstep := WatchStep.renew token leaseFor state.timer hmem
    have hleases : (s.leases.map fun e => if e.1 = token then (e.1,{ e.2 with
        lease := { e.2.lease with expireAt := now+leaseFor }
        timer := s.timers.length }) else e).map (fun e => (e.1,e.2.timer)) =
        s.watch.leases.map fun e => if e.1 = token then (e.1,s.timers.length) else e := by
      simp only [Heap.watch,List.map_map]
      refine List.map_congr_left fun e _ => ?_
      simp only [Function.comp]
      split_ifs <;> rfl
    simp only [Heap.watch,Heap.startTimer,Heap.stopTimer,hleases] at hstep ⊢
    exact hstep

theorem watch_exec {ans : Ans op} (h : exec b s op o = some (ans,s')) :
    WatchStep s.watch ⟨op,ans⟩ s'.watch := by
  cases op with
  | now =>
    cases o <;> simp only [exec,Option.some.injEq,Prod.mk.injEq,reduceCtorEq] at h
    exact watch_quiet rfl (h.2 ▸ rfl)
  | randomToken =>
    cases o <;> simp only [exec,Option.ite_none_right_eq_some,Option.some.injEq,Prod.mk.injEq,
      reduceCtorEq] at h
    obtain ⟨⟨_,hfresh⟩,rfl,rfl⟩ := h
    exact .issue _ hfresh
  | lookupSubscription queue =>
    simp only [exec] at h
    split_ifs at h
    · obtain ⟨rfl,rfl⟩ := Prod.mk.inj (Option.some.inj h)
      exact .quiet rfl
    · cases hsub : s.subscriptions.lookup queue <;>
        simp only [hsub,Option.some.injEq,Prod.mk.injEq] at h
      all_goals
        obtain ⟨rfl,rfl⟩ := h
        exact watch_quiet rfl rfl
  | subscribe sub queue => exact watch_quiet rfl (by rw [ledger_reply h])
  | cancel sub =>
    simp only [exec,Option.some.injEq,Prod.mk.injEq,true_and] at h
    subst h
    exact watch_quiet rfl rfl
  | dropSubscription queue =>
    simp only [exec,Option.some.injEq,Prod.mk.injEq,true_and] at h
    subst h
    exact watch_quiet rfl rfl
  | receive sub =>
    cases o <;> simp only [exec,Option.some.injEq,Prod.mk.injEq,reduceCtorEq] at h
    · split at h
      · cases h
      · split at h
        · cases h
        · split at h
          · cases h
          · obtain ⟨rfl,rfl⟩ := Prod.mk.inj (Option.some.inj h)
            exact watch_quiet rfl rfl
    · obtain ⟨rfl,rfl⟩ := h
      exact .quiet rfl
  | afterFunc leaseFor token =>
    simp only [exec,Option.some.injEq,Prod.mk.injEq] at h
    obtain ⟨rfl,rfl⟩ := h
    exact .arm leaseFor token
  | stopTimer timer =>
    simp only [exec,Option.some.injEq,Prod.mk.injEq,true_and] at h
    subst h
    exact .stop timer
  | fire timer =>
    simp only [exec] at h
    cases ht : s.timers[timer]? with
    | none => simp [ht] at h
    | some t =>
      simp only [ht,Option.ite_none_right_eq_some,Option.some.injEq,Prod.mk.injEq] at h
      obtain ⟨⟨harmed,hdue⟩,rfl,rfl⟩ := h
      exact .fire timer t ht harmed hdue
  | registerLease token state =>
    simp only [exec] at h
    split_ifs at h with hclosed
    · obtain ⟨rfl,rfl⟩ := Prod.mk.inj (Option.some.inj h)
      exact .refuse token state hclosed
    · obtain ⟨rfl,rfl⟩ := Prod.mk.inj (Option.some.inj h)
      have hstep := WatchStep.register (w := s.watch) token state (Bool.eq_false_iff.mpr hclosed)
      simpa only [Heap.watch,List.map_cons,watch_leases_filter] using hstep
  | popLease settler token => exact watch_popLease (Option.some.inj h)
  | renewLease token leaseFor =>
    cases o <;> simp only [exec,Option.some.injEq,reduceCtorEq] at h
    exact watch_renewLease h
  | close =>
    simp only [exec] at h
    split_ifs at h
    · obtain ⟨rfl,rfl⟩ := Prod.mk.inj (Option.some.inj h)
      exact .quiet rfl
    · cases o <;> simp only [Option.ite_none_right_eq_some,Option.some.injEq,Prod.mk.injEq,
        reduceCtorEq] at h
      obtain ⟨_,rfl,rfl⟩ := h
      exact .close _
  | complete delivery err =>
    simp only [exec,Option.some.injEq,Prod.mk.injEq,true_and] at h
    subst h
    exact watch_quiet rfl rfl
  | sleep delay => exact watch_quiet rfl (by rw [ledger_reply h])
  | enqueue replaced job =>
    cases o <;> simp only [exec,Option.some.injEq,Prod.mk.injEq,reduceCtorEq] at h
    all_goals
      obtain ⟨rfl,rfl⟩ := h
      exact watch_quiet rfl rfl
  | unsubscribe queue => exact watch_quiet rfl (by rw [ledger_reply h])
  | closeRuntime => exact watch_quiet rfl (by rw [ledger_reply h])
  | healthCheck => exact watch_quiet rfl (by rw [ledger_reply h])
  | offer sub job =>
    simp only [exec] at h
    split at h
    · cases h
    · cases o <;> simp only [Option.ite_none_right_eq_some,Option.some.injEq,Prod.mk.injEq,
        reduceCtorEq] at h
      · obtain ⟨_,rfl,rfl⟩ := h
        exact watch_quiet rfl rfl
      · obtain ⟨rfl,rfl⟩ := h
        exact .quiet rfl
  | await sub delivery =>
    cases o <;> simp only [exec,Option.some.injEq,Prod.mk.injEq,reduceCtorEq] at h
    · split at h
      · cases h
      · split at h
        · cases h
        · obtain ⟨rfl,rfl⟩ := Prod.mk.inj (Option.some.inj h)
          exact .quiet rfl
    · obtain ⟨rfl,rfl⟩ := h
      exact .quiet rfl

end Watching

section Timers

variable {w w' : Watch} {ev : Event Ans} {i j : ℕ} {t t' : Timer}

theorem disarm_back {timers : List Timer} (h : (timers.modify i disarm)[j]? = some t') :
    ∃ t, timers[j]? = some t ∧ t'.token = t.token ∧ t'.left = t.left ∧
      (t'.armed = true → t.armed = true ∧ j ≠ i) := by
  rw [List.getElem?_modify] at h
  obtain ⟨t,ht,rfl⟩ := Option.map_eq_some_iff.mp h
  refine ⟨t,ht,?_⟩
  by_cases hij : i = j
  · simp [hij,disarm]
  · simp only [hij,if_false,true_and]
    exact fun harmed => ⟨harmed,Ne.symm hij⟩

theorem disarm_other {timers : List Timer} (hij : j ≠ i) :
    (timers.modify i disarm)[j]? = timers[j]? := by
  simp [Ne.symm hij]

-- a timer once started keeps its token and its duration, and is never started again
structure Timer.Keeps (t t' : Timer) : Prop where
  token : t'.token = t.token
  left : t'.left = t.left
  armed : t'.armed = true → t.armed = true

theorem Timer.Keeps.refl (t : Timer) : t.Keeps t := ⟨rfl,rfl,fun h => h⟩

theorem keeps_disarm {timers : List Timer} (i : ℕ) (h : timers[j]? = some t) :
    ∃ t', (timers.modify i disarm)[j]? = some t' ∧ t.Keeps t' := by
  rw [List.getElem?_modify,h]
  refine ⟨_,rfl,?_⟩
  split_ifs
  · exact ⟨rfl,rfl,fun harmed => absurd harmed (by simp [disarm])⟩
  · exact .refl t

theorem keeps_append {timers : List Timer} (new : Timer) (h : timers[j]? = some t) :
    (timers ++ [new])[j]? = some t := by
  rw [List.getElem?_append_left (List.getElem?_eq_some_iff.mp h).1]
  exact h

theorem of_append {timers : List Timer} {new : Timer} (h : (timers ++ [new])[j]? = some t) :
    timers[j]? = some t ∨ j = timers.length ∧ t = new := by
  rcases Nat.lt_or_ge j timers.length with hlt | hge
  · rw [List.getElem?_append_left hlt] at h
    exact .inl h
  · rw [List.getElem?_append_right hge,List.getElem?_singleton] at h
    obtain ⟨hzero,heq⟩ := Option.ite_none_right_eq_some.mp h
    exact .inr ⟨by omega,(Option.some.inj heq).symm⟩

theorem keeps_step (h : WatchStep w ev w') (ht : w.timers[j]? = some t) :
    ∃ t', w'.timers[j]? = some t' ∧ t.Keeps t' := by
  cases h with
  | arm leaseFor token => exact ⟨t,keeps_append _ ht,.refl t⟩
  | stop timer => exact keeps_disarm timer ht
  | fire timer u there armed due => exact keeps_disarm timer ht
  | pop settler token state there =>
    dsimp only
    split_ifs
    · exact ⟨t,ht,.refl t⟩
    · exact keeps_disarm state.timer ht
  | renew token leaseFor timer there =>
    obtain ⟨t',ht',hkeeps⟩ := keeps_disarm timer ht
    exact ⟨t',keeps_append _ ht',hkeeps⟩
  | _ => exact ⟨t,ht,.refl t⟩

theorem timer_back (h : WatchStep w ev w') (ht : w'.timers[j]? = some t') :
    (∃ t, w.timers[j]? = some t ∧ t'.token = t.token ∧ (t'.armed = true → t.armed = true)) ∨
    (∃ d, ev = ⟨.afterFunc d t'.token,j⟩) ∨
    (∃ d, ev = ⟨.renewLease t'.token d,true⟩ ∧ j = w.timers.length ∧
      ∃ timer, (t'.token,timer) ∈ w.leases) := by
  have hback : ∀ {timer : ℕ}, (w.timers.modify timer disarm)[j]? = some t' →
      ∃ t, w.timers[j]? = some t ∧ t'.token = t.token ∧ (t'.armed = true → t.armed = true) := by
    intro timer hm
    obtain ⟨t,ht,htoken,_,harmed⟩ := disarm_back hm
    exact ⟨t,ht,htoken,fun ha => (harmed ha).1⟩
  cases h with
  | arm leaseFor token =>
    rcases of_append ht with ht | ⟨rfl,rfl⟩
    · exact .inl ⟨t',ht,rfl,fun h => h⟩
    · exact .inr (.inl ⟨leaseFor,rfl⟩)
  | stop timer => exact .inl (hback ht)
  | fire timer u there armed due => exact .inl (hback ht)
  | pop settler token state there =>
    dsimp only at ht
    split_ifs at ht
    · exact .inl ⟨t',ht,rfl,fun h => h⟩
    · exact .inl (hback ht)
  | renew token leaseFor timer there =>
    rcases of_append ht with ht | ⟨rfl,rfl⟩
    · exact .inl (hback ht)
    · exact .inr (.inr ⟨leaseFor,rfl,List.length_modify ..,timer,there⟩)
  | _ => exact .inl ⟨t',ht,rfl,fun h => h⟩

end Timers

section Keeping

variable {w w' : Watch} {ev : Event Ans} {p p' : ℕ → Prop}

-- the timer can still remove the lease: it is armed, or its callback waits for the mutex
def Watch.Live (w : Watch) (p : ℕ → Prop) (j : ℕ) (token : String) : Prop :=
  ∃ t, w.timers[j]? = some t ∧ t.token = token ∧ (t.armed = true ∨ p j)

structure Watch.Kept (w : Watch) (p : ℕ → Prop) : Prop where
  shut : w.closed = true → w.leases = []
  only : ∀ e ∈ w.leases, ∀ j, w.Live p j e.1 ↔ j = e.2

-- which callbacks wait for the mutex before and after an operation
structure Handover (w : Watch) (p : ℕ → Prop) (ev : Event Ans) (p' : ℕ → Prop) : Prop where
  same : ∀ j t, w.timers[j]? = some t → (∀ token, ev ≠ ⟨.fire j,token⟩) →
    (∀ a, ev ≠ ⟨.popLease .expiry t.token,a⟩) → (p' j ↔ p j)
  fired : ∀ j token, ev = ⟨.fire j,token⟩ → p' j
  idle : ∀ j t, p j → w.timers[j]? = some t → t.armed = false

def touches (token : String) : Event Ans → Bool
  | ⟨.afterFunc _ key,_⟩ => key = token
  | ⟨.stopTimer _,_⟩ => true
  | ⟨.popLease _ key,_⟩ => key = token
  | ⟨.renewLease key _,_⟩ => key = token
  | _ => false

theorem live_of_same_timers {token : String} {j : ℕ} (ht : w'.timers = w.timers)
    (hp : ∀ t, w.timers[j]? = some t → t.token = token → (p' j ↔ p j)) :
    w'.Live p' j token ↔ w.Live p j token := by
  unfold Watch.Live
  rw [ht]
  constructor
  · rintro ⟨t,htj,htoken,hlive⟩
    exact ⟨t,htj,htoken,by rwa [← hp t htj htoken]⟩
  · rintro ⟨t,htj,htoken,hlive⟩
    exact ⟨t,htj,htoken,by rwa [hp t htj htoken]⟩

theorem live_disarm {token : String} {i j : ℕ}
    (hij : ∀ t, w.timers[j]? = some t → t.token = token → j ≠ i)
    (ht : ∀ u, w'.timers[j]? = some u → u.token = token → (w.timers.modify i disarm)[j]? = some u)
    (ht' : ∀ u, (w.timers.modify i disarm)[j]? = some u → w'.timers[j]? = some u)
    (hp : ∀ t, w.timers[j]? = some t → t.token = token → (p' j ↔ p j)) :
    w'.Live p' j token ↔ w.Live p j token := by
  constructor
  · rintro ⟨u,hu,htoken,hlive⟩
    obtain ⟨t,htj,hsame,_,harmed⟩ := disarm_back (ht u hu htoken)
    have htoken' : t.token = token := hsame ▸ htoken
    refine ⟨t,htj,htoken',?_⟩
    rw [← hp t htj htoken']
    exact hlive.imp_left fun h => (harmed h).1
  · rintro ⟨t,htj,htoken,hlive⟩
    refine ⟨t,ht' t ((disarm_other (hij t htj htoken)).trans htj),htoken,?_⟩
    rwa [hp t htj htoken]

-- the timer of a lease has the token of the lease
theorem Watch.Kept.token_of_lease (hk : w.Kept p) {e : String × ℕ} {t : Timer}
    (he : e ∈ w.leases) (ht : w.timers[e.2]? = some t) : t.token = e.1 := by
  obtain ⟨u,hu,htoken,_⟩ := (hk.only e he e.2).mpr rfl
  rw [ht,Option.some.injEq] at hu
  exact hu ▸ htoken

theorem live_step {token : String} {j : ℕ} (hk : w.Kept p) (h : WatchStep w ev w')
    (hp : Handover w p ev p') (hev : touches token ev = false) :
    w'.Live p' j token ↔ w.Live p j token := by
  have hsame : (∀ key, ev ≠ ⟨.fire j,key⟩) →
      ∀ t, w.timers[j]? = some t → t.token = token → (p' j ↔ p j) := by
    intro hfire t htj htoken
    refine hp.same j t htj hfire fun a heq => ?_
    rw [heq] at hev
    simp [touches,htoken] at hev
  have hother : ∀ key timer, (key,timer) ∈ w.leases → key ≠ token →
      ∀ t, w.timers[j]? = some t → t.token = token → j ≠ timer := by
    rintro key timer he hne t htj htoken rfl
    exact hne ((hk.token_of_lease he htj).symm.trans htoken)
  cases h with
  | quiet hquiet =>
    refine live_of_same_timers rfl (hsame ?_)
    rintro key rfl
    cases hquiet
  | arm leaseFor key =>
    have hne : key ≠ token := of_decide_eq_false hev
    constructor
    · rintro ⟨u,hu,htoken,hlive⟩
      rcases of_append hu with hu | ⟨_,rfl⟩
      · exact ⟨u,hu,htoken,by rwa [← hsame (by simp) u hu htoken]⟩
      · exact absurd htoken hne
    · rintro ⟨t,htj,htoken,hlive⟩
      exact ⟨t,keeps_append _ htj,htoken,by rwa [hsame (by simp) t htj htoken]⟩
  | stop timer => cases hev
  | fire timer u there armed due =>
    by_cases hj : j = timer
    · subst hj
      have hp' : p' j := hp.fired j u.token rfl
      obtain ⟨u',hu',hkeeps⟩ := keeps_disarm j there
      constructor
      · rintro ⟨v,hv,htoken,_⟩
        cases hu'.symm.trans hv
        exact ⟨u,there,hkeeps.token ▸ htoken,.inl armed⟩
      · rintro ⟨v,hv,htoken,_⟩
        cases there.symm.trans hv
        exact ⟨u',hu',hkeeps.token.trans htoken,.inr hp'⟩
    · refine live_disarm (fun _ _ _ => hj) (fun v hv _ => hv) (fun v hv => hv) (hsame ?_)
      intro key heq
      cases heq
      exact hj rfl
  | pop settler key state there =>
    have hne : key ≠ token := of_decide_eq_false hev
    by_cases he : settler = .expiry
    · exact live_of_same_timers (if_pos he) (hsame (by simp))
    · refine live_disarm (hother key state.timer there hne) ?_ ?_ (hsame (by simp))
      all_goals simp only [he,if_false]
      · exact fun v hv _ => hv
      · exact fun v hv => hv
  | renew key leaseFor timer there =>
    have hne : key ≠ token := of_decide_eq_false hev
    refine live_disarm (hother key timer there hne) ?_ ?_ (hsame (by simp))
    · intro v hv htoken
      rcases of_append hv with hv | ⟨_,rfl⟩
      · exact hv
      · exact absurd htoken hne
    · exact fun v hv => keeps_append _ hv
  | _ => exact live_of_same_timers rfl (hsame (by simp))

-- what the callers see to; the last two are the windows that the mutex does not cover
def Watch.Allows (w : Watch) (p : ℕ → Prop) : Event Ans → Prop
  | ⟨.stopTimer _,_⟩ => w.closed = true
  | ⟨.afterFunc _ token,_⟩ => ∀ e ∈ w.leases, e.1 ≠ token
  | ⟨.registerLease token state,true⟩ => ∀ j, w.Live p j token ↔ j = state.timer
  | ⟨.renewLease token _,true⟩ => ∀ e ∈ w.leases, e.1 = token →
      ∃ t, w.timers[e.2]? = some t ∧ t.armed = true
  | _ => True

theorem kept_of_untouched (hk : w.Kept p) (h : WatchStep w ev w') (hp : Handover w p ev p')
    (hclosed : w'.closed = w.closed) (hleases : ∀ e ∈ w'.leases, e ∈ w.leases)
    (hev : ∀ e ∈ w'.leases, touches e.1 ev = false) : w'.Kept p' where
  shut hc := by
    have hnil := hk.shut (hclosed ▸ hc)
    rw [hnil] at hleases
    exact List.eq_nil_iff_forall_not_mem.mpr fun e he => List.not_mem_nil (hleases e he)
  only e he j := (live_step hk h hp (hev e he)).trans (hk.only e (hleases e he) j)

theorem live_renewed {token : String} {leaseFor : Duration} {timer : ℕ} (hk : w.Kept p)
    (hp : Handover w p ⟨.renewLease token leaseFor,true⟩ p') (there : (token,timer) ∈ w.leases)
    (armed : ∃ t, w.timers[timer]? = some t ∧ t.armed = true) (j : ℕ)
    (ht : w'.timers = w.timers.modify timer disarm ++ [⟨token,leaseFor,true⟩]) :
    w'.Live p' j token ↔ j = w.timers.length := by
  have hlen : (w.timers.modify timer disarm).length = w.timers.length := List.length_modify ..
  constructor
  · rintro ⟨u,hu,htoken,hlive⟩
    rw [ht] at hu
    rcases of_append hu with hu | ⟨hj,_⟩
    · -- no other timer of the token was live, and this one has just been stopped in time
      exfalso
      obtain ⟨t,htj,hsame,_,harmed⟩ := disarm_back hu
      have hpj : p' j ↔ p j := hp.same j t htj (by simp) (by simp)
      have hlive' : w.Live p j token := by
        refine ⟨t,htj,hsame ▸ htoken,?_⟩
        rw [← hpj]
        exact hlive.imp_left fun h => (harmed h).1
      have hj : j = timer := (hk.only _ there j).mp hlive'
      rcases hlive with h | h
      · exact (harmed h).2 hj
      · obtain ⟨v,hv,hva⟩ := armed
        rw [hj] at h hpj
        have hidle := hp.idle timer v (hpj.mp h) hv
        rw [hva] at hidle
        cases hidle
    · exact hj.trans hlen
  · rintro rfl
    refine ⟨⟨token,leaseFor,true⟩,?_,rfl,.inl rfl⟩
    rw [ht,List.getElem?_append_right (Nat.le_of_eq hlen),hlen]
    simp

theorem kept_step (hk : w.Kept p) (h : WatchStep w ev w') (hp : Handover w p ev p')
    (ha : w.Allows p ev) : w'.Kept p' := by
  cases h with
  | quiet hquiet =>
    refine kept_of_untouched hk (.quiet hquiet) hp rfl (fun _ he => he) fun e _ => ?_
    unfold touches
    split <;> simp_all [watched]
  | issue token fresh =>
    exact kept_of_untouched hk (.issue token fresh) hp rfl (fun _ he => he) fun e _ => rfl
  | arm leaseFor token =>
    refine kept_of_untouched hk (.arm leaseFor token) hp rfl (fun _ he => he) fun e he => ?_
    exact decide_eq_false (Ne.symm (ha e he))
  | stop timer =>
    have hnil := hk.shut ha
    exact ⟨fun _ => hnil,fun e he => absurd (hnil ▸ he) List.not_mem_nil⟩
  | fire timer t there armed due =>
    exact kept_of_untouched hk (.fire timer t there armed due) hp rfl (fun _ he => he) fun e _ => rfl
  | refuse token state shut =>
    exact kept_of_untouched hk (.refuse token state shut) hp rfl (fun _ he => he) fun e _ => rfl
  | register token state up =>
    refine ⟨fun hc => absurd (up.symm.trans hc) (by simp),fun e he j => ?_⟩
    refine (live_step hk (.register token state up) hp rfl).trans ?_
    rcases List.mem_cons.mp he with rfl | he
    · exact ha j
    · exact hk.only e (List.mem_of_mem_filter he) j
  | miss settler token none_ =>
    refine kept_of_untouched hk (.miss settler token none_) hp rfl (fun _ he => he) fun e he => ?_
    exact decide_eq_false (Ne.symm (none_ e he))
  | pop settler token state there =>
    refine kept_of_untouched hk (.pop settler token state there) hp rfl
      (fun _ he => List.mem_of_mem_filter he) fun e he => ?_
    have hne := of_decide_eq_true (List.mem_filter.mp he).2
    exact decide_eq_false (Ne.symm hne)
  | lost token leaseFor none_ =>
    refine kept_of_untouched hk (.lost token leaseFor none_) hp rfl (fun _ he => he) fun e he => ?_
    exact decide_eq_false (Ne.symm (none_ e he))
  | renew token leaseFor timer there =>
    refine ⟨fun hc => ?_,fun e he j => ?_⟩
    · have hnil := hk.shut hc
      rw [hnil] at there
      exact absurd there List.not_mem_nil
    obtain ⟨f,hf,rfl⟩ := List.mem_map.mp he
    split_ifs with hkey
    · rw [hkey]
      exact live_renewed hk hp there (ha _ there rfl) j rfl
    · exact (live_step hk (.renew token leaseFor timer there) hp
        (decide_eq_false (Ne.symm hkey))).trans (hk.only f hf j)
  | close taken => exact ⟨fun _ => rfl,fun e he => absurd he List.not_mem_nil⟩

end Keeping

section Granting

variable {w w' : Watch} {ev : Event Ans} {token : String} {n : Int}

-- the timer of the lease has at least this long to run
def Watch.Granted (w : Watch) (token : String) (n : Int) : Prop :=
  ∀ e ∈ w.leases, e.1 = token → ∃ t, w.timers[e.2]? = some t ∧ n ≤ t.left

def grants (token : String) : Event Ans → Bool
  | ⟨.registerLease key _,true⟩ => key = token
  | ⟨.renewLease key _,true⟩ => key = token
  | _ => false

theorem leases_back (h : WatchStep w ev w') (hev : grants token ev = false) {e : String × ℕ}
    (he : e ∈ w'.leases) (htoken : e.1 = token) : e ∈ w.leases := by
  cases h with
  | register key state up =>
    have hne : key ≠ token := of_decide_eq_false hev
    rcases List.mem_cons.mp he with rfl | he
    · exact absurd htoken hne
    · exact List.mem_of_mem_filter he
  | pop settler key state there => exact List.mem_of_mem_filter he
  | renew key leaseFor timer there =>
    have hne : key ≠ token := of_decide_eq_false hev
    obtain ⟨f,hf,rfl⟩ := List.mem_map.mp he
    split_ifs at htoken ⊢ with hkey
    · exact absurd (hkey.symm.trans htoken) hne
    · exact hf
  | close taken => exact absurd he List.not_mem_nil
  | _ => exact he

theorem granted_step (hg : w.Granted token n) (h : WatchStep w ev w')
    (hev : grants token ev = false) : w'.Granted token n := by
  intro e he htoken
  obtain ⟨t,ht,hleft⟩ := hg e (leases_back h hev he htoken) htoken
  obtain ⟨t',ht',hkeeps⟩ := keeps_step h ht
  exact ⟨t',ht',hkeeps.left ▸ hleft⟩

theorem granted_renew {leaseFor : Duration} {ans : Bool} {timer : ℕ}
    (h : WatchStep w ⟨.renewLease token leaseFor,ans⟩ w') (there : (token,timer) ∈ w.leases) :
    w'.Granted token leaseFor := by
  cases h with
  | quiet hev => cases hev
  | lost token leaseFor none_ => exact absurd rfl (none_ _ there)
  | renew token leaseFor timer there =>
    intro e he htoken
    obtain ⟨f,hf,rfl⟩ := List.mem_map.mp he
    split_ifs at htoken ⊢ with hkey
    · have hlen : (w.timers.modify timer disarm).length = w.timers.length := List.length_modify ..
      refine ⟨⟨token,leaseFor,true⟩,?_,Int.le_refl _⟩
      dsimp only
      rw [List.getElem?_append_right (Nat.le_of_eq hlen),hlen]
      simp
    · exact absurd htoken hkey

theorem granted_register {state : LeaseState} {ans : Bool} {t : Timer}
    (h : WatchStep w ⟨.registerLease token state,ans⟩ w') (up : w.closed = false)
    (ht : w.timers[state.timer]? = some t) : w'.Granted token t.left := by
  cases h with
  | quiet hev => cases hev
  | refuse token state shut => exact absurd (up.symm.trans shut) (by simp)
  | register token state up =>
    intro e he htoken
    rcases List.mem_cons.mp he with rfl | he
    · exact ⟨t,ht,Int.le_refl _⟩
    · exact absurd htoken (of_decide_eq_true (List.mem_filter.mp he).2)

theorem granted_tick {s : Heap} (h : s.watch.Granted token n) (elapsed : ℕ) :
    (s.tick elapsed).watch.Granted token (n-elapsed) := by
  intro e he htoken
  obtain ⟨t,ht,hleft⟩ := h e he htoken
  have ht' : s.timers[e.2]? = some t := ht
  refine ⟨{ t with left := t.left-elapsed },by simp [Heap.watch,Heap.tick,ht'],?_⟩
  exact Int.sub_le_sub_right hleft _

end Granting

section Records

variable {w w' : Watch} {ev : Event Ans}

-- what a goroutine has seen that stays true
def Watch.Recorded (w : Watch) : Event Ans → Prop
  | ⟨.randomToken,token⟩ => token ∈ w.issued
  | ⟨.afterFunc _ token,timer⟩ => ∃ t, w.timers[timer]? = some t ∧ t.token = token
  | ⟨.fire timer,token⟩ => ∃ t, w.timers[timer]? = some t ∧ t.token = token ∧
      t.armed = false ∧ t.left ≤ 0
  | ⟨.registerLease ..,false⟩ => w.closed = true
  | ⟨.close,some _⟩ => w.closed = true
  | _ => True

structure Watch.Later (w w' : Watch) : Prop where
  closed : w.closed = true → w'.closed = true
  issued : ∀ token ∈ w.issued, token ∈ w'.issued
  timers : ∀ (j : ℕ) (t : Timer), w.timers[j]? = some t → ∃ t' : Timer, w'.timers[j]? = some t' ∧
    t'.token = t.token ∧ t'.left ≤ t.left ∧ (t'.armed = true → t.armed = true)

theorem later_step (h : WatchStep w ev w') : w.Later w' where
  closed hc := by cases h <;> first | exact hc | rfl
  issued token htoken := by
    cases h <;> first | exact htoken | exact List.mem_cons_of_mem _ htoken
  timers j t ht := by
    obtain ⟨t',ht',hkeeps⟩ := keeps_step h ht
    exact ⟨t',ht',hkeeps.token,Int.le_of_eq hkeeps.left,hkeeps.armed⟩

theorem later_tick (s : Heap) (elapsed : ℕ) : s.watch.Later (s.tick elapsed).watch where
  closed hc := hc
  issued token htoken := htoken
  timers j t ht := by
    refine ⟨{ t with left := t.left-elapsed },?_,rfl,Int.sub_le_self _ (Int.natCast_nonneg _),fun h => h⟩
    have ht' : s.timers[j]? = some t := ht
    simp [Heap.watch,Heap.tick,ht']

theorem recorded_of_later (hl : w.Later w') (h : w.Recorded ev) : w'.Recorded ev := by
  unfold Watch.Recorded at h ⊢
  split at h
  · exact hl.issued _ h
  · obtain ⟨t,ht,htoken⟩ := h
    obtain ⟨t',ht',htoken',_⟩ := hl.timers _ t ht
    exact ⟨t',ht',htoken'.trans htoken⟩
  · obtain ⟨t,ht,htoken,harmed,hleft⟩ := h
    obtain ⟨t',ht',htoken',hleft',harmed'⟩ := hl.timers _ t ht
    refine ⟨t',ht',htoken'.trans htoken,?_,le_trans hleft' hleft⟩
    exact Bool.eq_false_iff.mpr fun h => Bool.eq_false_iff.mp harmed (harmed' h)
  · exact hl.closed h
  · exact hl.closed h
  · trivial

theorem recorded_step (h : WatchStep w ev w') : w'.Recorded ev := by
  cases h with
  | quiet hquiet =>
    unfold Watch.Recorded
    split <;> simp_all [watched]
  | issue token fresh => exact List.mem_cons_self
  | arm leaseFor token => exact ⟨⟨token,leaseFor,true⟩,by simp,rfl⟩
  | fire timer t there armed due =>
    exact ⟨disarm t,by simp [there],rfl,rfl,due⟩
  | refuse token state shut => exact shut
  | close taken => rfl
  | _ => trivial

end Records

end Nimburion.Jobs.RuntimeBackend
