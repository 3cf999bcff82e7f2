import Nimburion.Jobs.RuntimeSafety
import Nimburion.Jobs.RuntimeTimers
import Nimburion.Jobs.RuntimeWatch

namespace Nimburion.Jobs.RuntimeBackend
open Interaction GoText GoTime

def Pending (c : State) (timer : ℕ) : Prop :=
  ∃ t ∈ c.threads, t.alive = true ∧ ∃ token, Fired timer token t.trace

structure Timed (c : State) : Prop where
  recorded : ∀ t ∈ c.threads, ∀ ev ∈ t.trace, c.shared.watch.Recorded ev
  issued : ∀ (j : ℕ) (t : Timer), c.shared.watch.timers[j]? = some t →
    t.token ∈ c.shared.watch.issued
  fresh : ∀ t ∈ c.threads, ∀ token, (Mark.token token).held t.trace = true →
    ∀ (j : ℕ) (u : Timer), c.shared.watch.timers[j]? = some u → u.token = token →
      ∃ d, (⟨.afterFunc d token,j⟩ : Event Ans) ∈ t.trace
  kept : c.shared.watch.Kept (Pending c)

def Heap.armed (s : Heap) (timer : ℕ) : Bool := s.timers[timer]?.any (·.armed)

-- no callback of the lease's timer has started when Renew stops the timer or Reserve stores the
-- lease; a goroutine does not die alone
def unraced (c : State) : Act → Bool
  | .crash _ => false
  | a => match c.next a with
    | some (_,.renewLease token _,_) =>
        c.shared.leases.all fun e => e.1 ≠ token || c.shared.armed e.2.timer
    | some (_,.registerLease _ state,_) => c.shared.closed || c.shared.armed state.timer
    | _ => true

def Heap.leftOn (s : Heap) (timer : ℕ) : Int := (s.timers[timer]?.map (·.left)).getD 0

def started (t : Thread Ans GoError Call Reply) : Option Duration :=
  match t.trace with
  | ⟨.afterFunc d _,_⟩ :: _ => some d
  | _ => none

-- the lease that a Renew or a Reserve grants, and the duration it was asked for
def grant (c : State) (a : Act) : Option (String × Int) :=
  match c.next a with
  | some (_,.renewLease token d,_) =>
      if (c.shared.leases.lookup token).isSome then some (token,d) else none
  | some (t,.registerLease token _,_) =>
      if c.shared.closed then none else (started t).map fun d => (token,d)
  | _ => none

-- the same with the time that is left when the lease is stored: Reserve starts the timer before
def promise (c : State) (a : Act) : Option (String × Int) :=
  match c.next a with
  | some (_,.renewLease token d,_) =>
      if (c.shared.leases.lookup token).isSome then some (token,d) else none
  | some (_,.registerLease token state,_) =>
      if c.shared.closed then none else some (token,c.shared.leftOn state.timer)
  | _ => none

def prompt (c : State) (a : Act) : Bool :=
  unraced c a && match c.next a with
    | some (t,.registerLease _ state,_) =>
        c.shared.closed || started t = some (c.shared.leftOn state.timer)
    | _ => true

def expires (c : State) (a : Act) : Option String :=
  match c.next a with
  | some (_,.popLease .expiry token,_) =>
      if (c.shared.leases.lookup token).isSome then some token else none
  | _ => none

def elapsed : List Act → ℕ
  | [] => 0
  | .env e :: acts => e + elapsed acts
  | _ :: acts => elapsed acts

def NeverEarly (cfg : Config) (grant : State → Act → Option (String × Int)) (acts : List Act) :
    Prop :=
  ∀ before a between b after c₁ c₂ c₃ token d, acts = before ++ a :: (between ++ b :: after) →
    (system cfg).run before start = some c₁ → (system cfg).step c₁ a = some c₂ →
    (system cfg).run between c₂ = some c₃ → grant c₁ a = some (token,d) →
    (system cfg).Along (fun c a => ∀ d', grant c a ≠ some (token,d')) between c₂ →
    expires c₃ b = some token → d ≤ elapsed between

def Watched (c : State) : Prop :=
  ∀ e ∈ c.shared.leases, ∃ t, c.shared.timers[e.2.timer]? = some t ∧ t.token = e.1 ∧
    (t.armed = true ∨ Pending c e.2.timer)

section Runs

variable {cfg : Config} {c : State} {i j : ℕ} {x : Outcome} {t u : Thread Ans GoError Call Reply}
  {op : Op} {k : Ans op → M Reply} {ans : Ans op} {s' : Heap} {token : String}

theorem held_of_drawn {tr : Trace} (hdraw : (⟨.randomToken,token⟩ : Event Ans) ∈ tr)
    (hnone : tr.any registers = false) : (Mark.token token).held tr = true := by
  rw [Mark.held,hnone,Bool.not_false,Bool.and_true,List.any_eq_true]
  exact ⟨_,hdraw,decide_eq_true rfl⟩

theorem registers_of_arms {tr : Trace} (h : tr.any arms = false) : tr.any registers = false := by
  rw [List.any_eq_false] at h ⊢
  intro ev hev hreg
  refine h ev hev ?_
  unfold registers at hreg
  split at hreg
  · rename_i hop
    simp [arms,hop]
  · cases hreg

theorem held_cons {tr : Trace} {ev : Event Ans} (h : (Mark.token token).held (ev :: tr) = true) :
    (Mark.token token).held tr = true ∨ ev = ⟨.randomToken,token⟩ := by
  simp only [Mark.held,List.any_cons,Bool.and_eq_true,Bool.or_eq_true,Bool.not_eq_true',
    Bool.or_eq_false_iff] at h ⊢
  obtain ⟨hdraw | hdraw,_,hnone⟩ := h
  · right
    unfold Mark.drawn at hdraw
    split at hdraw <;> simp_all
  · exact .inl ⟨hdraw,hnone⟩

theorem held_once (hs : Safe c) (ht : c.threads[i]? = some t) (hu : c.threads[j]? = some u)
    (hheld : (Mark.token token).held t.trace = true)
    (hheld' : (Mark.token token).held u.trace = true) : i = j := by
  have honce := hs.once (.token token)
  exact Machine.eq_of_countP_le_one (q := fun t => (Mark.token token).held t.trace)
    (le_trans (Nat.le_add_left _ _) honce) ht hu hheld hheld'

theorem held_unstored (hs : Safe c) (ht : t ∈ c.threads)
    (hheld : (Mark.token token).held t.trace = true) :
    ∀ e ∈ c.shared.watch.leases, e.1 ≠ token := by
  rintro e he rfl
  obtain ⟨f,hf,rfl⟩ := List.mem_map.mp he
  have honce := hs.once (.token f.1)
  have hthreads : 0 < c.threads.countP fun t => (Mark.token f.1).held t.trace :=
    List.countP_pos_iff.mpr ⟨t,ht,hheld⟩
  have hentries : 0 < c.shared.ledger.entries.countP (Mark.token f.1).onEntry :=
    List.countP_pos_iff.mpr ⟨entry f,List.mem_map_of_mem hf,decide_eq_true rfl⟩
  unfold Mark.stock at honce
  omega

theorem fired_recorded (h : Timed c) (ht : t ∈ c.threads) (hf : Fired j token t.trace) :
    ∃ u, c.shared.watch.timers[j]? = some u ∧ u.token = token ∧ u.armed = false ∧ u.left ≤ 0 := by
  refine h.recorded t ht ⟨.fire j,token⟩ ?_
  rw [show t.trace = [⟨.fire j,token⟩] from hf]
  exact List.mem_singleton_self _

theorem handover_exec (h : Timed c) (ht : c.threads[i]? = some t) (hal : t.alive = true)
    (hpre : (timing t.call).pre t.trace op) : Handover c.shared.watch (Pending c) ⟨op,ans⟩
      (Pending ⟨s',c.threads.set i { t with rest := k ans, trace := ⟨op,ans⟩ :: t.trace }⟩) where
  same j timer htimer hfire hpop := by
    constructor
    · rintro ⟨u,hu,hual,token,hf⟩
      rcases List.mem_or_eq_of_mem_set hu with hu | rfl
      · exact ⟨u,hu,hual,token,hf⟩
      · exact absurd (List.cons.inj hf).1 (hfire token)
    · rintro ⟨u,hu,hual,token,hf⟩
      refine Machine.exists_mem_set ht ?_ ⟨u,hu,hual,token,hf⟩
      rintro ⟨_,key,hkey⟩
      have hop := hpre.2 j key hkey
      obtain ⟨timer',htimer',htoken,_⟩ := fired_recorded h (List.mem_of_getElem? ht) hkey
      rw [htimer,Option.some.injEq] at htimer'
      subst hop htimer' htoken
      exact absurd rfl (hpop ans)
  fired j token heq := by
    cases heq
    have hnil : t.trace = [] := hpre.1
    refine ⟨_,List.mem_set (List.getElem?_eq_some_iff.mp ht).1 _,hal,token,?_⟩
    rw [Fired,hnil]
  idle j timer hp htimer := by
    obtain ⟨u,hu,_,token,hf⟩ := hp
    obtain ⟨timer',htimer',_,harmed,_⟩ := fired_recorded h hu hf
    rw [htimer,Option.some.injEq] at htimer'
    exact htimer' ▸ harmed

theorem armed_timer {s : Heap} (h : s.armed j = true) :
    ∃ t, s.watch.timers[j]? = some t ∧ t.armed = true :=
  (Option.any_eq_true _ _).mp h

theorem live_registered (h : Timed c) (ht : t ∈ c.threads) {state : LeaseState}
    (hpre : Timely t.trace (.registerLease token state))
    (harmed : c.shared.armed state.timer = true) :
    c.shared.watch.Live (Pending c) j token ↔ j = state.timer := by
  obtain ⟨d,rest,htr,hdraw,harms⟩ := hpre
  constructor
  · -- the only timer of the token is the one that this Reserve has started
    rintro ⟨timer,htimer,htoken,_⟩
    have hheld : (Mark.token token).held t.trace = true := by
      rw [htr]
      exact held_of_drawn (List.mem_cons_of_mem _ hdraw)
        (by simp [registers,registers_of_arms harms])
    obtain ⟨d',hmem⟩ := h.fresh t ht token hheld j timer htimer htoken
    rw [htr] at hmem
    rcases List.mem_cons.mp hmem with heq | hmem
    · cases heq
      rfl
    · exact absurd rfl (List.any_eq_false.mp harms _ hmem)
  · rintro rfl
    obtain ⟨timer,htimer,ha⟩ := armed_timer harmed
    have hrec : c.shared.watch.Recorded ⟨.afterFunc d token,state.timer⟩ :=
      h.recorded t ht _ (by rw [htr]; exact List.mem_cons_self)
    obtain ⟨timer',htimer',htoken⟩ := hrec
    rw [htimer,Option.some.injEq] at htimer'
    exact ⟨timer,htimer,htimer' ▸ htoken,.inl ha⟩

theorem allows_exec (hs : Safe c) (h : Timed c) (ht : c.threads[i]? = some t)
    (hal : t.alive = true) (hrest : t.rest = .call op k) (hpre : Timely t.trace op)
    (hu : unraced c (.exec i x) = true) {w' : Watch}
    (hstep : WatchStep c.shared.watch ⟨op,ans⟩ w') : c.shared.watch.Allows (Pending c) ⟨op,ans⟩ := by
  have hmem := List.mem_of_getElem? ht
  cases op with
  | stopTimer timer =>
    obtain ⟨token,state,hin⟩ | ⟨taken,hin⟩ := hpre
    · exact h.recorded t hmem _ hin
    · exact h.recorded t hmem _ hin
  | afterFunc d token => exact held_unstored hs hmem (held_of_drawn hpre.1 (registers_of_arms hpre.2))
  | registerLease token state =>
    cases hstep with
    | quiet hev => cases hev
    | refuse token state shut => trivial
    | register token state up =>
      have hclosed : c.shared.closed = false := up
      simp only [unraced,Config.next_exec ht hal hrest,hclosed,Bool.false_or] at hu
      exact fun j => live_registered h hmem hpre hu
  | renewLease token leaseFor =>
    cases hstep with
    | quiet hev => cases hev
    | lost token leaseFor none_ => trivial
    | renew token leaseFor timer there =>
      simp only [unraced,Config.next_exec ht hal hrest,List.all_eq_true,Bool.or_eq_true,
        decide_eq_true_eq] at hu
      intro e he htoken
      obtain ⟨f,hf,rfl⟩ := List.mem_map.mp he
      rcases hu f hf with hne | harmed
      · exact absurd htoken hne
      · exact armed_timer harmed
  | _ => trivial

theorem fresh_exec (hs : Safe c) (h : Timed c) (ht : c.threads[i]? = some t)
    (hpre : Timely t.trace op) {w' : Watch} (hstep : WatchStep c.shared.watch ⟨op,ans⟩ w') :
    ∀ u ∈ c.threads.set i { t with rest := k ans, trace := ⟨op,ans⟩ :: t.trace },
      ∀ token, (Mark.token token).held u.trace = true →
      ∀ (j : ℕ) (timer : Timer), w'.timers[j]? = some timer → timer.token = token →
        ∃ d, (⟨.afterFunc d token,j⟩ : Event Ans) ∈ u.trace := by
  intro u hu token hheld j timer htimer htoken
  subst htoken
  obtain ⟨n,hset⟩ := List.getElem?_of_mem hu
  rcases Machine.of_getElem?_set hset with ⟨rfl,rfl⟩ | ⟨hne,hn⟩
  · have hmem := List.mem_of_getElem? ht
    rcases held_cons hheld with hheld | heq
    · rcases timer_back hstep htimer with ⟨old,hold,htoken,_⟩ | ⟨d,heq⟩ | ⟨d,heq,_,key,hkey⟩
      · obtain ⟨d,hin⟩ := h.fresh t hmem timer.token hheld j old hold htoken.symm
        exact ⟨d,List.mem_cons_of_mem _ hin⟩
      · exact ⟨d,heq ▸ List.mem_cons_self⟩
      · exact absurd rfl (held_unstored hs hmem hheld _ hkey)
    · cases heq
      cases hstep with
      | quiet hev => cases hev
      | issue token fresh => exact absurd (h.issued j timer htimer) fresh
  · have hmem := List.mem_of_getElem? hn
    rcases timer_back hstep htimer with ⟨old,hold,htoken,_⟩ | ⟨d,heq⟩ | ⟨d,heq,_,key,hkey⟩
    · exact h.fresh u hmem timer.token hheld j old hold htoken.symm
    · -- the goroutine that starts the timer has drawn the token itself
      cases heq
      have hheld' := held_of_drawn hpre.1 (registers_of_arms hpre.2)
      exact absurd (held_once hs hn ht hheld hheld') hne
    · exact absurd rfl (held_unstored hs hmem hheld _ hkey)

theorem issued_exec (h : Timed c) (ht : t ∈ c.threads) (hpre : Timely t.trace op) {w' : Watch}
    (hstep : WatchStep c.shared.watch ⟨op,ans⟩ w') (timer : Timer)
    (htimer : w'.timers[j]? = some timer) : timer.token ∈ w'.issued := by
  have hlater := later_step hstep
  rcases timer_back hstep htimer with ⟨old,hold,htoken,_⟩ | ⟨d,heq⟩ | ⟨d,_,_,key,hkey⟩
  · rw [htoken]
    exact hlater.issued _ (h.issued j old hold)
  · cases heq
    exact hlater.issued _ (h.recorded t ht _ hpre.1)
  · obtain ⟨old,hold,htoken,_⟩ := (h.kept.only _ hkey key).mpr rfl
    have hissued := h.issued key old hold
    rw [htoken] at hissued
    exact hlater.issued _ hissued

theorem timed_exec (hs : Safe c) (h : Timed c) (ht : c.threads[i]? = some t) (hal : t.alive = true)
    (hrest : t.rest = .call op k) (hpre : (timing t.call).pre t.trace op)
    (hu : unraced c (.exec i x) = true) (hx : exec cfg.normalize c.shared op x = some (ans,s')) :
    Timed ⟨s',c.threads.set i { t with rest := k ans, trace := ⟨op,ans⟩ :: t.trace }⟩ := by
  have hstep := watch_exec hx
  have hmem := List.mem_of_getElem? ht
  refine ⟨?_,fun j timer => issued_exec h hmem hpre.1 hstep timer,fresh_exec hs h ht hpre.1 hstep,
    kept_step h.kept hstep (handover_exec h ht hal hpre) (allows_exec hs h ht hal hrest hpre.1 hu hstep)⟩
  have hold : ∀ u ∈ c.threads, ∀ ev ∈ u.trace, s'.watch.Recorded ev := fun u hu ev hev =>
    recorded_of_later (later_step hstep) (h.recorded u hu ev hev)
  refine Machine.forall_mem_set hold fun ev hev => ?_
  rcases List.mem_cons.mp hev with rfl | hev
  · exact recorded_step hstep
  · exact hold t hmem ev hev

theorem timed_tick (h : Timed c) (elapsed : ℕ) :
    Timed { c with shared := c.shared.tick elapsed } := by
  have hback : ∀ {j : ℕ} {u : Timer}, (c.shared.tick elapsed).watch.timers[j]? = some u →
      ∃ old, c.shared.watch.timers[j]? = some old ∧ u.token = old.token ∧ u.armed = old.armed := by
    intro j u hu
    have hu' : (c.shared.timers.map fun t => { t with left := t.left-elapsed })[j]? = some u := hu
    rw [List.getElem?_map,Option.map_eq_some_iff] at hu'
    obtain ⟨old,hold,rfl⟩ := hu'
    exact ⟨old,hold,rfl,rfl⟩
  refine ⟨?_,?_,?_,h.kept.shut,?_⟩
  · exact fun t ht ev hev => recorded_of_later (later_tick _ _) (h.recorded t ht ev hev)
  · intro j u hu
    obtain ⟨old,hold,htoken,_⟩ := hback hu
    exact htoken ▸ h.issued j old hold
  · intro t ht token hheld j u hu htoken
    obtain ⟨old,hold,hsame,_⟩ := hback hu
    exact h.fresh t ht token hheld j old hold (hsame.symm.trans htoken)
  · intro e he j
    refine Iff.trans ⟨?_,?_⟩ (h.kept.only e he j)
    · rintro ⟨u,hu,htoken,hlive⟩
      obtain ⟨old,hold,hsame,harmed⟩ := hback hu
      exact ⟨old,hold,hsame.symm.trans htoken,harmed ▸ hlive⟩
    · rintro ⟨old,hold,htoken,hlive⟩
      have hold' : c.shared.timers[j]? = some old := hold
      exact ⟨{ old with left := old.left-elapsed },by simp [Heap.watch,Heap.tick,hold'],htoken,hlive⟩

theorem timed_start (h : Timed c) (call : Call) :
    Timed { c with threads := c.threads ++ [⟨call,program cfg.normalize call,[],true⟩] } := by
  have hthreads : ∀ u ∈ c.threads ++ [⟨call,program cfg.normalize call,[],true⟩],
      u ∈ c.threads ∨ u.trace = [] := by
    intro u hu
    rcases List.mem_append.mp hu with hu | hu
    · exact .inl hu
    · exact .inr (by rw [List.mem_singleton.mp hu])
  have hpending : Pending { c with
      threads := c.threads ++ [⟨call,program cfg.normalize call,[],true⟩] } = Pending c := by
    funext j
    refine propext ⟨?_,?_⟩
    · rintro ⟨u,hu,hual,token,hf⟩
      rcases hthreads u hu with hu | hnil
      · exact ⟨u,hu,hual,token,hf⟩
      · rw [Fired,hnil] at hf
        cases hf
    · rintro ⟨u,hu,hual,token,hf⟩
      exact ⟨u,List.mem_append_left _ hu,hual,token,hf⟩
  refine ⟨?_,h.issued,?_,hpending ▸ h.kept⟩
  · intro u hu ev hev
    rcases hthreads u hu with hu | hnil
    · exact h.recorded u hu ev hev
    · rw [hnil] at hev
      cases hev
  · intro u hu token hheld
    rcases hthreads u hu with hu | hnil
    · exact h.fresh u hu token hheld
    · rw [hnil] at hheld
      cases hheld

theorem timed_empty : Timed start where
  recorded t ht := absurd ht List.not_mem_nil
  issued j t ht := by cases ht
  fresh t ht := absurd ht List.not_mem_nil
  kept := ⟨fun _ => rfl,fun e he => absurd he List.not_mem_nil⟩

theorem timed_of_run {acts : List Act} (hrun : (system cfg).run acts start = some c)
    (hu : (system cfg).Along (fun c a => unraced c a = true) acts start) :
    Timed c ∧ Machine.ThreadsMeet timing (fun _ => Idle) c := by
  have halong : (system cfg).Along (fun c a => unraced c a = true ∧ Safe c) acts start := by
    refine (system cfg).along_of_reached fun xs a ys d heq hxs => ⟨?_,(safe_of_run hxs).1⟩
    exact (system cfg).along_at (heq ▸ hu) hxs
  refine Machine.run_config_invariant (program_timely cfg.normalize) ?_ ?_ ?_ ?_ timed_empty ?_
    halong hrun
  · exact fun c call h _ => timed_start h call
  · intro c i x t op k ans s' h hP ht hal hrest hpre hx
    exact ⟨trivial,timed_exec hP.2 h ht hal hrest hpre hP.1 hx⟩
  · intro c i t h hP
    cases hP.1
  · exact fun c e h _ => timed_tick h e
  · exact fun t ht => absurd ht List.not_mem_nil

theorem watched_of_timed (h : Timed c) : Watched c := fun e he =>
  (h.kept.only (e.1,e.2.timer) (List.mem_map.mpr ⟨e,he,rfl⟩) e.2.timer).mpr rfl

theorem watch_mem_of_lookup {s : Heap} (h : (s.leases.lookup token).isSome = true) :
    ∃ timer, (token,timer) ∈ s.watch.leases := by
  obtain ⟨state,hlook⟩ := Option.isSome_iff_exists.mp h
  exact ⟨state.timer,List.mem_map.mpr ⟨_,lookup_some_mem hlook,rfl⟩⟩

theorem promise_granted {a : Act} {c' : State} {n : Int} (h : Timed c)
    (hm : Machine.ThreadsMeet timing (fun _ => Idle) c) (hs : (system cfg).step c a = some c')
    (hp : promise c a = some (token,n)) : c'.shared.watch.Granted token n := by
  obtain ⟨call,rfl,rfl⟩ | ⟨i,x,t,op,k,ans,s',rfl,ht,hal,hrest,hx,rfl⟩ | ⟨i,t,rfl,ht,rfl⟩ |
    ⟨e,rfl,rfl⟩ := (system cfg).step_cases hs
  · cases hp
  · have hstep := watch_exec hx
    have hmem := List.mem_of_getElem? ht
    cases op with
    | renewLease key d =>
      simp only [promise,Config.next_exec ht hal hrest,Option.ite_none_right_eq_some,
        Option.some.injEq,Prod.mk.injEq] at hp
      obtain ⟨hlook,rfl,rfl⟩ := hp
      obtain ⟨timer,hin⟩ := watch_mem_of_lookup hlook
      exact granted_renew hstep hin
    | registerLease key state =>
      simp only [promise,Config.next_exec ht hal hrest,Option.ite_none_left_eq_some,
        Option.some.injEq,Prod.mk.injEq,Bool.not_eq_true] at hp
      obtain ⟨hclosed,rfl,rfl⟩ := hp
      have hmeet := hm t hmem
      rw [hrest,Prog.meets_call] at hmeet
      obtain ⟨d,rest,htr,_⟩ := hmeet.1.1
      obtain ⟨timer,htimer,_⟩ : c.shared.watch.Recorded ⟨.afterFunc d key,state.timer⟩ :=
        h.recorded t hmem _ (by rw [htr]; exact List.mem_cons_self)
      have hleft : c.shared.leftOn state.timer = timer.left := by
        have htimer' : c.shared.timers[state.timer]? = some timer := htimer
        simp [Heap.leftOn,htimer']
      rw [hleft]
      exact granted_register hstep hclosed htimer
    | _ => simp [promise,Config.next_exec ht hal hrest] at hp
  · cases hp
  · cases hp

theorem ungranted (ht : c.threads[i]? = some t) (hal : t.alive = true)
    (hrest : t.rest = .call op k) {w' : Watch} (hstep : WatchStep c.shared.watch ⟨op,ans⟩ w')
    (hno : ∀ d, promise c (.exec i x) ≠ some (token,d)) : grants token ⟨op,ans⟩ = false := by
  refine Bool.eq_false_iff.mpr fun hev => ?_
  have hnext := Config.next_exec (χ := Outcome) (ν := ℕ) ht hal hrest x
  cases hstep with
  | register key state up =>
    have hclosed : c.shared.closed = false := up
    cases of_decide_eq_true hev
    refine hno (c.shared.leftOn state.timer) ?_
    simp only [promise,hnext,hclosed,Bool.false_eq_true,if_false]
  | renew key leaseFor timer there =>
    cases of_decide_eq_true hev
    refine hno leaseFor ?_
    have hlook : (c.shared.leases.lookup token).isSome = true := by
      refine Option.isSome_iff_ne_none.mpr fun hnone => ?_
      exact absurd rfl (lookup_none_keys hnone _ there)
    simp only [promise,hnext,hlook,if_true]
  | quiet hquiet =>
    unfold grants at hev
    split at hev <;> simp_all [watched]
  | _ => cases hev

theorem granted_run {acts : List Act} {c' : State} {n : Int}
    (hg : c.shared.watch.Granted token n)
    (hno : (system cfg).Along (fun c a => ∀ d, promise c a ≠ some (token,d)) acts c)
    (hrun : (system cfg).run acts c = some c') :
    c'.shared.watch.Granted token (n-elapsed acts) := by
  induction acts generalizing c n with
  | nil =>
    simp only [Machine.run_nil,Option.some.injEq] at hrun
    simpa [elapsed,← hrun] using hg
  | cons a acts ih =>
    simp only [Machine.run_cons,Option.bind_eq_some_iff] at hrun
    obtain ⟨d,hd,hrun⟩ := hrun
    obtain ⟨hno,hrest⟩ := hno
    rw [hd] at hrest
    obtain ⟨call,rfl,rfl⟩ | ⟨i,x,t,op,k,ans,s',rfl,ht,hal,hop,hx,rfl⟩ | ⟨i,t,rfl,ht,rfl⟩ |
      ⟨e,rfl,rfl⟩ := (system cfg).step_cases hd
    · refine ih ?_ hrest hrun
      exact hg
    · have hstep := watch_exec hx
      exact ih (granted_step hg hstep (ungranted ht hal hop hstep hno)) hrest hrun
    · refine ih ?_ hrest hrun
      exact hg
    · have hlater := ih (granted_tick hg e) hrest hrun
      rw [elapsed,Int.natCast_add,← Int.sub_sub]
      exact hlater

-- the callback that removes the lease belongs to the timer that the lease holds
theorem due_at_expiry {a : Act} {n : Int} (h : Timed c)
    (hm : Machine.ThreadsMeet timing (fun _ => Idle) c) (hg : c.shared.watch.Granted token n)
    (hx : expires c a = some token) : n ≤ 0 := by
  have hnext : ∃ t x, c.next a = some (t,.popLease .expiry token,x) ∧
      (c.shared.leases.lookup token).isSome = true := by
    unfold expires at hx
    split at hx
    · rename_i t key x hnext
      obtain ⟨hlook,heq⟩ := Option.ite_none_right_eq_some.mp hx
      cases heq
      exact ⟨t,x,hnext,hlook⟩
    · cases hx
  obtain ⟨t,x,hnext,hlook⟩ := hnext
  obtain ⟨i,_,ht,hal,k,hrest⟩ := Config.of_next hnext
  have hmem := List.mem_of_getElem? ht
  have hmeet := hm t hmem
  rw [hrest,Prog.meets_call] at hmeet
  obtain ⟨timer,hf⟩ := hmeet.1.1 rfl
  obtain ⟨u,hu,htoken,_,hleft⟩ := fired_recorded h hmem hf
  obtain ⟨key,hkey⟩ := watch_mem_of_lookup hlook
  have hsame : timer = key :=
    (h.kept.only _ hkey timer).mp ⟨u,hu,htoken,.inr ⟨t,hmem,hal,token,hf⟩⟩
  obtain ⟨v,hv,hn⟩ := hg _ hkey rfl
  rw [← hsame,hu,Option.some.injEq] at hv
  exact le_trans hn (hv ▸ hleft)

theorem never_early {acts : List Act}
    (hu : (system cfg).Along (fun c a => unraced c a = true) acts start) :
    NeverEarly cfg promise acts := by
  intro before a between b after c₁ c₂ c₃ token d hacts hbefore hs hbetween hp hno hx
  rw [hacts] at hu
  obtain ⟨h₁,hm₁⟩ := timed_of_run hbefore ((system cfg).along_left hu)
  have hrun : (system cfg).run (before ++ a :: between) start = some c₃ := by
    rw [Machine.run_append,hbefore,Option.bind_some,Machine.run_cons,hs,Option.bind_some]
    exact hbetween
  have hu₃ : (system cfg).Along (fun c a => unraced c a = true) (before ++ a :: between) start := by
    rw [← List.cons_append,← List.append_assoc] at hu
    exact (system cfg).along_left hu
  obtain ⟨h₃,hm₃⟩ := timed_of_run hrun hu₃
  have hg := granted_run (promise_granted h₁ hm₁ hs hp) hno hbetween
  exact Int.le_of_sub_nonpos (due_at_expiry h₃ hm₃ hg hx)

theorem promise_eq_grant {a : Act} (h : prompt c a = true) : promise c a = grant c a := by
  obtain ⟨_,h⟩ := Bool.and_eq_true_iff.mp h
  unfold promise grant
  cases hnext : c.next a with
  | none => rfl
  | some r =>
    obtain ⟨t,op,x⟩ := r
    cases op with
    | registerLease token state =>
      simp only [hnext,Bool.or_eq_true,decide_eq_true_eq] at h
      rcases h with hclosed | hleft
      · simp [hclosed]
      · simp [hleft]
    | _ => rfl

theorem leases_expire_on_time {acts : List Act} (hrun : (system cfg).run acts start = some c) :
    ((system cfg).Along (fun c a => unraced c a = true) acts start →
      Watched c ∧ NeverEarly cfg promise acts) ∧
    ((system cfg).Along (fun c a => prompt c a = true) acts start →
      Watched c ∧ NeverEarly cfg grant acts) := by
  have hunraced : (system cfg).Along (fun c a => unraced c a = true) acts start →
      Watched c ∧ NeverEarly cfg promise acts := fun hu =>
    ⟨watched_of_timed (timed_of_run hrun hu).1,never_early hu⟩
  refine ⟨hunraced,fun hp => ?_⟩
  obtain ⟨hwatched,hearly⟩ := hunraced ((system cfg).along_imp (I := fun _ => True)
    (fun _ _ _ h => (Bool.and_eq_true_iff.mp h).1) (fun _ _ _ _ _ _ => trivial) trivial hp)
  refine ⟨hwatched,?_⟩
  intro before a between b after c₁ c₂ c₃ token d hacts hbefore hs hbetween hg hno hx
  have hp' := hacts ▸ hp
  have hprompt := (system cfg).along_at hp' hbefore
  refine hearly before a between b after c₁ c₂ c₃ token d hacts hbefore hs hbetween
    ((promise_eq_grant hprompt).trans hg) ?_ hx
  refine (system cfg).along_of_reached fun xs e ys c' heq hxs => ?_
  have hsplit : before ++ a :: (between ++ b :: after) =
      (before ++ a :: xs) ++ e :: (ys ++ b :: after) := by
    simp [heq]
  have hreach : (system cfg).run (before ++ a :: xs) start = some c' := by
    rw [Machine.run_append,hbefore,Option.bind_some,Machine.run_cons,hs,Option.bind_some]
    exact hxs
  rw [hsplit] at hp'
  rw [promise_eq_grant ((system cfg).along_at hp' hreach)]
  rw [heq] at hno
  exact (system cfg).along_at hno hxs

end Runs

def mailLease : Lease := ⟨"j1","a1","q",0,0⟩

def timerStarted : List Act :=
  [.start (.reserve "q" 5),.exec 0 .done,.exec 0 .done,.start (.handle 0 (some mail)),
    .exec 1 .done,.exec 0 .done,.exec 0 (.token "a1"),.exec 0 (.at second),.exec 0 .done]

-- renewed for 10 three units after Reserve; its second timer fires
def callbackWaits : List Act := timerStarted ++
  ([.exec 0 .done,.env 3,.start (.renew (some mailLease) 10),.exec 2 (.at second),.env 10,
    .start (.expireLease 1),.exec 3 .done] : List Act)

def expired : List Act := callbackWaits ++ ([.exec 3 .done] : List Act)

theorem mail_expires_on_time : ∃ c c',
    (system plain).run callbackWaits start = some c ∧ c.shared.leases.length = 1 ∧ Watched c ∧
    (system plain).run expired start = some c' ∧
    c'.shared.leases.length = 0 ∧ NeverEarly plain promise expired ∧
    NeverEarly plain grant expired := by
  have hrun : ((system plain).run callbackWaits start).any
      (fun c => c.shared.leases.length = 1) = true := by decide +kernel
  have hrun' : ((system plain).run expired start).any
      (fun c => c.shared.leases.length = 0) = true := by decide +kernel
  have hprompt : (system plain).Along (fun c a => prompt c a = true) expired start := by
    decide +kernel
  have hunraced : (system plain).Along (fun c a => unraced c a = true) expired start := by
    decide +kernel
  obtain ⟨c,hc,hlen⟩ := (Option.any_eq_true _ _).mp hrun
  obtain ⟨c',hc',hlen'⟩ := (Option.any_eq_true _ _).mp hrun'
  exact ⟨c,c',hc,of_decide_eq_true hlen,
    ((leases_expire_on_time hc).1 ((system plain).along_left hunraced)).1,hc',
    of_decide_eq_true hlen',((leases_expire_on_time hc').1 hunraced).2,
    ((leases_expire_on_time hc').2 hprompt).2⟩

-- the callback of the first timer has started when Renew stops that timer
def lateStop : List Act := timerStarted ++
  ([.exec 0 .done,.env 5,.start (.expireLease 0),.exec 2 .done,.start (.renew (some mailLease) 10)] :
    List Act)

def removedEarly : List Act := lateStop ++ ([.exec 3 (.at second),.exec 2 .done] : List Act)

-- the callback has run before Reserve stores the lease
def lateStore : List Act := timerStarted ++
  ([.env 5,.start (.expireLease 0),.exec 2 .done,.exec 2 .done,.exec 0 .done] : List Act)

theorem not_watched_of_spent {c : State}
    (h : (c.shared.leases.any fun e => !c.shared.armed e.2.timer) = true)
    (hidle : (c.threads.all fun t => t.trace.length ≠ 1 || !t.trace.any fires) = true) :
    ¬ Watched c := by
  intro hw
  obtain ⟨e,he,harmed⟩ := List.any_eq_true.mp h
  obtain ⟨t,ht,_,hlive | ⟨u,hu,_,token,hf⟩⟩ := hw e he
  · simp [Heap.armed,ht,hlive] at harmed
  · have := List.all_eq_true.mp hidle u hu
    rw [show u.trace = [⟨.fire e.2.timer,token⟩] from hf] at this
    simp [fires] at this

theorem raced_timers_break_leases :
    (∃ c, (system plain).run removedEarly start = some c ∧ ¬ NeverEarly plain grant removedEarly) ∧
    ∃ c, (system plain).run lateStore start = some c ∧ ¬ Watched c := by
  constructor
  · have hrun : ((system plain).run lateStop start).any (fun c₁ =>
        grant c₁ (.exec 3 (.at second)) = some ("a1",10) &&
        ((system plain).step c₁ (.exec 3 (.at second))).any fun c₂ =>
          expires c₂ (.exec 2 .done) = some "a1" &&
            ((system plain).step c₂ (.exec 2 .done)).isSome) = true := by decide +kernel
    obtain ⟨c₁,hc₁,hfacts⟩ := (Option.any_eq_true _ _).mp hrun
    obtain ⟨hgrant,hfacts⟩ := Bool.and_eq_true_iff.mp hfacts
    obtain ⟨c₂,hc₂,hfacts⟩ := (Option.any_eq_true _ _).mp hfacts
    obtain ⟨hexpires,hlast⟩ := Bool.and_eq_true_iff.mp hfacts
    obtain ⟨c₃,hc₃⟩ := Option.isSome_iff_exists.mp hlast
    refine ⟨c₃,?_,fun hearly => ?_⟩
    · simp only [removedEarly,Machine.run_append,hc₁,Option.bind_some,Machine.run_cons,Machine.run_nil,hc₂,hc₃]
    · have hle := hearly lateStop _ [] _ [] c₁ c₂ c₂ "a1" 10 rfl hc₁ hc₂ rfl
        (of_decide_eq_true hgrant) trivial (of_decide_eq_true hexpires)
      simp [elapsed] at hle
  · have hrun : ((system plain).run lateStore start).any (fun c =>
        (c.shared.leases.any fun e => !c.shared.armed e.2.timer) &&
        c.threads.all fun t => t.trace.length ≠ 1 || !t.trace.any fires) = true := by decide +kernel
    obtain ⟨c,hc,hfacts⟩ := (Option.any_eq_true _ _).mp hrun
    obtain ⟨hspent,hidle⟩ := Bool.and_eq_true_iff.mp hfacts
    exact ⟨c,hc,not_watched_of_spent hspent hidle⟩

end Nimburion.Jobs.RuntimeBackend
