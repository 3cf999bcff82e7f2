import Nimburion.Core.App
import Nimburion.Lib.Interaction

namespace Nimburion.Core.App
open GoTime GoText Transition

section Effects

variable {app : Application} {c c' : State} {a : Act}

def unsent (gs : List Goroutine) : ℕ := gs.countP (· ≠ .sent)

-- what a step may do to the part of the state that shutdown works on
inductive Effect (app : Application) (c : State) : Act → State → Prop where
  | elsewhere {a : Act} {c' : State} (hphase : c'.phase = c.phase) (hnow : c'.now = c.now)
      (hcaller : c'.callerDone = c.callerDone) (hvisits : c'.visits = c.visits)
      (hreceived : c.phase ≠ .running → c'.received = c.received)
      (hcount : c'.received+c'.errCh.length+unsent c'.goroutines =
        c.received+c.errCh.length+unsent c.goroutines) : Effect app c a c'
  | ticked (d : ℕ) : Effect app c (.tick d) (tick app c d)
  | done (err : GoError) :
      Effect app c (.callerDone err) { c with callerDone := true, runErr := c.runErr.or (some err) }
  | begun (hphase : c.phase = .running) (hall : c.received = app.runners.length) :
      Effect app c .shutdown { c with phase := .shuttingDown (opened app c.now) }
  | woken (s : Shutdown) (hphase : c.phase = .shuttingDown s)
      (hready : c.callerDone = true ∨ s.ctx ≠ .live) :
      Effect app c .helper { c with phase := .shuttingDown (cancel s) }
  | visited (s : Shutdown) (hook : Hook) (i : ℕ) (v : Visit) (stage : Stage) (errs : List GoError)
      (hphase : c.phase = .shuttingDown s) (hleft : s.left = i+1)
      (hhook : app.shutdownHooks[i]? = some hook) (hindex : v.index = i)
      (hstage : stage = .between ∨ stage = .executing)
      (hskip : hook.hasFn = false → v.ran = false)
      (hran : hook.hasFn = true → active v.found = false → v.ran = true) :
      Effect app c .next (visit c s v stage errs)
  | waited (s : Shutdown) (hook : Hook) (i : ℕ) (deadline : Time) (found : Option FailureSpec)
      (hphase : c.phase = .shuttingDown s) (hleft : s.left = i+1)
      (hhook : app.shutdownHooks[i]? = some hook) (hfn : hook.hasFn = true)
      (hactive : active found = true) :
      Effect app c .next { c with phase := .shuttingDown { s with stage := .delayed deadline found } }
  | resumed (s : Shutdown) (timer : Bool) (i : ℕ) (deadline : Time) (v : Visit) (stage : Stage)
      (errs : List GoError) (hphase : c.phase = .shuttingDown s)
      (hdelayed : s.stage = .delayed deadline v.found) (hleft : s.left = i+1) (hindex : v.index = i)
      (hstage : stage = .between ∨ stage = .executing) :
      Effect app c (.resume timer) (visit c s v stage errs)
  | hookReturned (s : Shutdown) (err : Option GoError) (errs : List GoError)
      (hphase : c.phase = .shuttingDown s) :
      Effect app c (.hookReturns err)
        { c with phase := .shuttingDown { s with stage := .between, errs := errs } }
  | finished (s : Shutdown) (err : Option GoError) (errs : List GoError)
      (hphase : c.phase = .shuttingDown s) (hleft : s.left = 0) :
      Effect app c (.finish err) { c with phase := .returned c.firstErr errs }

theorem inShutdown_some {f : Shutdown → Option State} (h : inShutdown c f = some c') :
    ∃ s, c.phase = .shuttingDown s ∧ f s = some c' := by
  rw [inShutdown] at h
  split at h
  · exact ⟨_,‹_›,h⟩
  · cases h

theorem unsent_send {gs : List Goroutine} {i : ℕ} {g : Goroutine} (hg : gs[i]? = some g)
    (hsent : g ≠ .sent) : unsent (gs.set i .sent)+1 = unsent gs :=
  Interaction.Machine.countP_set_of_drop hg (by simpa using hsent) (by simp)

theorem unsent_keep {gs : List Goroutine} {i : ℕ} {g g' : Goroutine} (hg : gs[i]? = some g)
    (hsent : g ≠ .sent) (hsent' : g' ≠ .sent) : unsent (gs.set i g') = unsent gs :=
  Interaction.Machine.countP_set_of_same hg (by simp [hsent,hsent'])

theorem Effect.sends {i : ℕ} {g : Goroutine} (hg : c.goroutines[i]? = some g) (hsent : g ≠ .sent)
    (err : Option GoError) : Effect app c a (send c i err) := by
  refine .elsewhere rfl rfl rfl rfl (fun _ => rfl) ?_
  have hdrop := unsent_send hg hsent
  simp only [send,List.length_append,List.length_singleton]
  omega

theorem Effect.moves {i : ℕ} {g g' : Goroutine} (hg : c.goroutines[i]? = some g)
    (hsent : g ≠ .sent) (hsent' : g' ≠ .sent) :
    Effect app c a { c with goroutines := c.goroutines.set i g' } := by
  refine .elsewhere rfl rfl rfl rfl (fun _ => rfl) ?_
  simp only [unsent_keep hg hsent hsent']

theorem stepRunner_effect {i : ℕ} {err : Option GoError} (h : stepRunner app c i err = some c') :
    Effect app c a c' := by
  rw [stepRunner] at h
  split at h
  · rename_i runner hrunner hg
    split at h
    · cases h
      exact .sends hg (by simp) none
    · split at h
      · cases h
        exact .moves hg (by simp) (by simp)
      · cases h
        exact .moves hg (by simp) (by simp)
      · cases h
        exact .sends hg (by simp) _
  · rename_i hg
    cases h
    exact .sends hg (by simp) err
  · cases h

theorem resumeRunner_effect {i : ℕ} {timer : Bool} (h : resumeRunner app c i timer = some c') :
    Effect app c a c' := by
  rw [resumeRunner] at h
  split at h
  · rename_i hg
    split at h
    · split at h
      · cases h
        exact .moves hg (by simp) (by simp)
      · cases h
    · obtain ⟨e,_,rfl⟩ := Option.map_eq_some_iff.mp h
      exact .sends hg (by simp) _
  · cases h

theorem receive_effect (h : receive c = some c') : Effect app c a c' := by
  rw [receive] at h
  split at h
  · rename_i err rest hphase hch
    have hcount : c.received+1+rest.length+unsent c.goroutines =
        c.received+c.errCh.length+unsent c.goroutines := by
      rw [hch,List.length_cons]
      omega
    split at h
    · cases h
      exact .elsewhere rfl rfl rfl rfl (fun hnot => absurd hphase hnot) hcount
    · cases h
      exact .elsewhere rfl rfl rfl rfl (fun hnot => absurd hphase hnot) hcount
  · cases h

theorem nextHook_effect {s : Shutdown} (hphase : c.phase = .shuttingDown s)
    (h : nextHook app c s = some c') : Effect app c .next c' := by
  rw [nextHook] at h
  split at h
  · rename_i i _ hleft
    obtain ⟨hook,hhook,h⟩ := Option.map_eq_some_iff.mp h
    dsimp only at h
    split at h
    · rename_i hfn
      subst h
      exact .visited s hook i _ _ _ hphase hleft hhook rfl (.inl rfl) (fun _ => rfl)
        (fun hyes => absurd hyes (by simpa using hfn))
    · rename_i hfn
      have hfn : hook.hasFn = true := by simpa using hfn
      split at h
      · subst h
        exact .visited s hook i _ _ _ hphase hleft hhook rfl (.inr rfl)
          (fun hno => absurd hfn (by simp [hno])) (fun _ _ => rfl)
      · rename_i e happly
        subst h
        exact .visited s hook i _ _ _ hphase hleft hhook rfl (.inl rfl) (fun _ => rfl)
          (fun _ hactive => by simp [active,happly] at hactive)
      · rename_i delay happly
        subst h
        exact .waited s hook i _ _ hphase hleft hhook hfn (by simp [active,happly])
  · cases h

theorem resumeHook_effect {s : Shutdown} {timer : Bool} (hphase : c.phase = .shuttingDown s)
    (h : resumeHook app c timer s = some c') : Effect app c (.resume timer) c' := by
  rw [resumeHook] at h
  split at h
  · rename_i deadline found i hstage hleft
    obtain ⟨hook,hhook,h⟩ := Option.bind_eq_some_iff.mp h
    split at h
    · split at h
      · cases h
        exact .resumed s timer i deadline ⟨i,found,true⟩ _ _ hphase hstage hleft rfl (.inr rfl)
      · cases h
    · obtain ⟨e,_,rfl⟩ := Option.map_eq_some_iff.mp h
      exact .resumed s timer i deadline ⟨i,found,false⟩ _ _ hphase hstage hleft rfl (.inl rfl)
  · cases h

theorem step_effect (h : step app c a = some c') : Effect app c a c' := by
  cases a with
  | tick d =>
    cases h
    exact .ticked d
  | callerDone err =>
    cases h
    exact .done err
  | setSpec target spec =>
    cases h
    exact .elsewhere rfl rfl rfl rfl (fun _ => rfl) rfl
  | runner i err => exact stepRunner_effect h
  | resumeRunner i timer => exact resumeRunner_effect h
  | receive => exact receive_effect h
  | shutdown =>
    simp only [step,beginShutdown] at h
    split at h
    · rename_i hphase
      split_ifs at h with hall
      cases h
      exact .begun hphase hall
    · cases h
  | helper =>
    obtain ⟨s,hphase,h⟩ := inShutdown_some h
    rw [stepHelper] at h
    split_ifs at h with hready
    cases h
    simp only [Bool.and_eq_true,Bool.or_eq_true,decide_eq_true_eq] at hready
    exact .woken s hphase hready.2
  | next =>
    obtain ⟨s,hphase,h⟩ := inShutdown_some h
    exact nextHook_effect hphase h
  | resume timer =>
    obtain ⟨s,hphase,h⟩ := inShutdown_some h
    exact resumeHook_effect hphase h
  | hookReturns err =>
    obtain ⟨s,hphase,h⟩ := inShutdown_some h
    rw [hookReturns] at h
    split at h
    · cases h
      exact .hookReturned s err _ hphase
    · cases h
  | finish err =>
    obtain ⟨s,hphase,h⟩ := inShutdown_some h
    rw [finish] at h
    split_ifs at h with hlast
    cases h
    simp only [Bool.and_eq_true,decide_eq_true_eq] at hlast
    exact .finished s err _ hphase hlast.2

end Effects

section Grace

variable {app : Application} {c c' : State} {a : Act}

theorem of_tick_phase {d : ℕ} {s : Shutdown} (h : (tick app c d).phase = .shuttingDown s) :
    ∃ s₀, c.phase = .shuttingDown s₀ ∧ s = expire app (c.now+d) s₀ := by
  cases hphase : c.phase with
  | running => simp [tick,hphase] at h
  | returned e es => simp [tick,hphase] at h
  | shuttingDown s₀ =>
    simp only [tick,hphase,Phase.shuttingDown.injEq] at h
    exact ⟨s₀,rfl,h.symm⟩

-- the caller's context is not done in the grace period
def undisturbed (app : Application) (c : State) : Act → Bool
  | .callerDone _ => match c.phase with
      | .shuttingDown s => s.began+app.shutdownTimeout ≤ c.now
      | _ => true
  | .shutdown => !c.callerDone
  | _ => true

def Grace (app : Application) (c : State) : Prop :=
  ∀ s, c.phase = .shuttingDown s → c.callerDone = true ∨ s.ctx ≠ .live →
    s.began+app.shutdownTimeout ≤ c.now

theorem grace_step (h : Grace app c) (hP : undisturbed app c a = true)
    (hs : step app c a = some c') : Grace app c' := by
  have heffect := step_effect hs
  cases heffect with
  | elsewhere hphase hnow hcaller hvisits hreceived hcount =>
    intro s hs' hdone
    rw [hnow]
    rw [hcaller] at hdone
    exact h s (hphase ▸ hs') hdone
  | ticked d =>
    intro s hs' hdone
    obtain ⟨s₀,hphase,rfl⟩ := of_tick_phase hs'
    simp only [tick]
    rw [expire] at hdone ⊢
    split_ifs at hdone ⊢ with hexpired
    · exact hexpired.2
    · exact Int.le_trans (h s₀ hphase hdone) (Int.le_add_of_nonneg_right (Int.natCast_nonneg d))
  | done err =>
    intro s hs' _
    simp only [undisturbed] at hP
    rw [hs'] at hP
    simpa using hP
  | begun hphase hall =>
    intro s hs' hdone
    simp only [Phase.shuttingDown.injEq] at hs'
    subst hs'
    simp only [undisturbed,Bool.not_eq_true'] at hP
    simp [hP,opened] at hdone
  | woken s₀ hphase hready =>
    intro s hs' _
    simp only [Phase.shuttingDown.injEq] at hs'
    subst hs'
    exact h s₀ hphase hready
  | visited s₀ hook i v stage errs hphase =>
    intro s hs' hdone
    simp only [visit,Phase.shuttingDown.injEq] at hs'
    subst hs'
    exact h s₀ hphase hdone
  | waited s₀ hook i deadline found hphase =>
    intro s hs' hdone
    simp only [Phase.shuttingDown.injEq] at hs'
    subst hs'
    exact h s₀ hphase hdone
  | resumed s₀ timer i deadline v stage errs hphase =>
    intro s hs' hdone
    simp only [visit,Phase.shuttingDown.injEq] at hs'
    subst hs'
    exact h s₀ hphase hdone
  | hookReturned s₀ err errs hphase =>
    intro s hs' hdone
    simp only [Phase.shuttingDown.injEq] at hs'
    subst hs'
    exact h s₀ hphase hdone
  | finished s₀ err errs hphase hleft =>
    intro s hs' _
    simp at hs'

end Grace

section Order

variable {app : Application} {c c' : State} {a : Act}

-- the hooks visited, and those left, are all the hooks from the last to the first
structure Orderly (app : Application) (c : State) : Prop where
  count : c.received+c.errCh.length+unsent c.goroutines = app.runners.length
  running : c.phase = .running → c.visits = []
  all : c.phase ≠ .running → c.received = app.runners.length
  stopping : ∀ s, c.phase = .shuttingDown s → c.visits.map Visit.index ++ (List.range s.left).reverse =
    (List.range app.shutdownHooks.length).reverse
  waiting : ∀ s deadline found i, c.phase = .shuttingDown s → s.stage = .delayed deadline found →
    s.left = i+1 → active found = true ∧ ∃ hook, app.shutdownHooks[i]? = some hook ∧ hook.hasFn = true
  returned : ∀ e es, c.phase = .returned e es →
    c.visits.map Visit.index = (List.range app.shutdownHooks.length).reverse
  faithful : ∀ v ∈ c.visits, ∃ hook, app.shutdownHooks[v.index]? = some hook ∧
    (hook.hasFn = false → v.ran = false) ∧ (hook.hasFn = true → active v.found = false → v.ran = true)

theorem Orderly.visit {s : Shutdown} {i : ℕ} {v : Visit} {stage : Stage} (h : Orderly app c)
    (hphase : c.phase = .shuttingDown s) (hleft : s.left = i+1) (hindex : v.index = i)
    (hstage : stage = .between ∨ stage = .executing)
    (hv : ∃ hook, app.shutdownHooks[v.index]? = some hook ∧ (hook.hasFn = false → v.ran = false) ∧
      (hook.hasFn = true → active v.found = false → v.ran = true)) (errs : List GoError) :
    Orderly app (App.visit c s v stage errs) := by
  refine ⟨h.count,fun hrun => (nomatch hrun),fun _ => h.all (by simp [hphase]),?_,?_,
    fun e es hret => (nomatch hret),?_⟩
  · intro s' hs'
    simp only [App.visit,Phase.shuttingDown.injEq] at hs'
    subst hs'
    have hbefore := h.stopping s hphase
    rw [hleft,List.range_succ,List.reverse_append] at hbefore
    simpa [App.visit,hindex] using hbefore
  · intro s' deadline found j hs' hdelayed
    simp only [App.visit,Phase.shuttingDown.injEq] at hs'
    subst hs'
    rcases hstage with rfl | rfl <;> cases hdelayed
  · intro u hu
    rcases List.mem_append.mp hu with hu | hu
    · exact h.faithful u hu
    · rw [List.mem_singleton.mp hu]
      exact hv

-- the same place in the loop
theorem Orderly.stay {s s' : Shutdown} (h : Orderly app c) (hphase : c.phase = .shuttingDown s)
    (hleft : s'.left = s.left)
    (hwait : ∀ deadline found i, s'.stage = .delayed deadline found → s.left = i+1 →
      active found = true ∧ ∃ hook, app.shutdownHooks[i]? = some hook ∧ hook.hasFn = true) :
    Orderly app { c with phase := .shuttingDown s' } := by
  refine ⟨h.count,fun hrun => (nomatch hrun),fun _ => h.all (by simp [hphase]),?_,?_,
    fun e es hret => (nomatch hret),h.faithful⟩
  · intro s₁ hs₁
    simp only [Phase.shuttingDown.injEq] at hs₁
    subst hs₁
    rw [hleft]
    exact h.stopping s hphase
  · intro s₁ deadline found i hs₁ hdelayed hi
    simp only [Phase.shuttingDown.injEq] at hs₁
    subst hs₁
    exact hwait deadline found i hdelayed (hleft ▸ hi)

theorem Orderly.same (h : Orderly app c) (hphase : c'.phase = c.phase) (hvisits : c'.visits = c.visits)
    (hreceived : c.phase ≠ .running → c'.received = c.received)
    (hcount : c'.received+c'.errCh.length+unsent c'.goroutines =
      c.received+c.errCh.length+unsent c.goroutines) : Orderly app c' := by
  refine ⟨hcount.trans h.count,?_,?_,?_,?_,?_,?_⟩
  · intro hrun
    rw [hvisits]
    exact h.running (hphase ▸ hrun)
  · intro hnot
    rw [hphase] at hnot
    exact (hreceived hnot).trans (h.all hnot)
  · intro s hs'
    rw [hvisits]
    exact h.stopping s (hphase ▸ hs')
  · intro s deadline found i hs'
    exact h.waiting s deadline found i (hphase ▸ hs')
  · intro e es hret
    rw [hvisits]
    exact h.returned e es (hphase ▸ hret)
  · rw [hvisits]
    exact h.faithful

theorem Orderly.tick (h : Orderly app c) (d : ℕ) : Orderly app (App.tick app c d) := by
  cases hphase : c.phase with
  | running => exact h.same (by simp [App.tick,hphase]) rfl (fun _ => rfl) rfl
  | returned e es => exact h.same (by simp [App.tick,hphase]) rfl (fun _ => rfl) rfl
  | shuttingDown s =>
    have hleft : (expire app (c.now+d) s).left = s.left := by
      rw [expire]
      split_ifs <;> rfl
    have hstage : (expire app (c.now+d) s).stage = s.stage := by
      rw [expire]
      split_ifs <;> rfl
    have hstay := h.stay hphase hleft
      (fun deadline found i hdelayed => h.waiting s deadline found i hphase (hstage ▸ hdelayed))
    exact hstay.same (by simp [App.tick,hphase]) rfl (fun _ => rfl) rfl

theorem orderly_step (h : Orderly app c) (hs : step app c a = some c') : Orderly app c' := by
  have heffect := step_effect hs
  cases heffect with
  | elsewhere hphase hnow hcaller hvisits hreceived hcount =>
    exact h.same hphase hvisits hreceived hcount
  | ticked d => exact h.tick d
  | done err => exact h.same rfl rfl (fun _ => rfl) rfl
  | begun hphase hall =>
    refine ⟨h.count,fun hrun => (nomatch hrun),fun _ => hall,?_,?_,fun e es hret => (nomatch hret),h.faithful⟩
    · intro s hs'
      simp only [Phase.shuttingDown.injEq] at hs'
      subst hs'
      simp [h.running hphase,opened]
    · intro s deadline found i hs' hdelayed
      simp only [Phase.shuttingDown.injEq] at hs'
      subst hs'
      cases hdelayed
  | woken s hphase hready =>
    exact h.stay hphase rfl fun deadline found i hdelayed => h.waiting s deadline found i hphase hdelayed
  | visited s hook i v stage errs hphase hleft hhook hindex hstage hskip hran =>
    exact h.visit hphase hleft hindex hstage ⟨hook,hindex ▸ hhook,hskip,hran⟩ errs
  | waited s hook i deadline found hphase hleft hhook hfn hactive =>
    refine h.stay hphase rfl ?_
    intro deadline' found' j hdelayed hj
    cases hdelayed
    obtain rfl : i = j := by omega
    exact ⟨hactive,hook,hhook,hfn⟩
  | resumed s timer i deadline v stage errs hphase hdelayed hleft hindex hstage =>
    obtain ⟨hactive,hook,hhook,hfn⟩ := h.waiting s deadline v.found i hphase hdelayed hleft
    refine h.visit hphase hleft hindex hstage ⟨hook,hindex ▸ hhook,?_,?_⟩ errs
    · intro hno
      rw [hfn] at hno
      cases hno
    · intro _ hno
      rw [hactive] at hno
      cases hno
  | hookReturned s err errs hphase =>
    exact h.stay hphase rfl fun deadline found i hdelayed => (nomatch hdelayed)
  | finished s err errs hphase hleft =>
    refine ⟨h.count,fun hrun => (nomatch hrun),fun _ => h.all (by simp [hphase]),
      fun s' hs' => (nomatch hs'),fun s' deadline found i hs' => (nomatch hs'),?_,h.faithful⟩
    intro e es _
    have hbefore := h.stopping s hphase
    simpa [hleft] using hbefore

theorem orderly_started (now : Time) (callerErr : Option GoError)
    (specs : String → Option FailureSpec) : Orderly app (started app now callerErr specs) :=
  ⟨by simp [started,unsent,List.countP_replicate],fun _ => rfl,fun hnot => absurd rfl hnot,fun _ h => (nomatch h),
    fun _ _ _ _ h => (nomatch h),fun _ _ h => (nomatch h),fun _ h => (nomatch h)⟩

end Order

section Hooks

variable {app : Application} {c c' : State} {a : Act}

-- the helper waits as long as the context of the hooks is live
def HelperWaits (c : State) : Prop :=
  ∀ s, c.phase = .shuttingDown s → s.ctx = .live → s.helper = true

theorem helperWaits_step (h : HelperWaits c) (hs : step app c a = some c') : HelperWaits c' := by
  have heffect := step_effect hs
  cases heffect with
  | elsewhere hphase => exact fun s hs' => h s (hphase ▸ hs')
  | ticked d =>
    intro s hs' hlive
    obtain ⟨s₀,hphase,rfl⟩ := of_tick_phase hs'
    rw [expire] at hlive ⊢
    split_ifs at hlive ⊢
    exact h s₀ hphase hlive
  | done err => exact h
  | begun hphase hall =>
    intro s hs' _
    simp only [Phase.shuttingDown.injEq] at hs'
    subst hs'
    rfl
  | woken s₀ hphase hready =>
    intro s hs' hlive
    simp only [Phase.shuttingDown.injEq] at hs'
    subst hs'
    simp only [cancel] at hlive
    split_ifs at hlive with hwas
    exact absurd hlive hwas
  | visited s₀ hook i v stage errs hphase =>
    intro s hs' hlive
    simp only [visit,Phase.shuttingDown.injEq] at hs'
    subst hs'
    exact h s₀ hphase hlive
  | waited s₀ hook i deadline found hphase =>
    intro s hs' hlive
    simp only [Phase.shuttingDown.injEq] at hs'
    subst hs'
    exact h s₀ hphase hlive
  | resumed s₀ timer i deadline v stage errs hphase =>
    intro s hs' hlive
    simp only [visit,Phase.shuttingDown.injEq] at hs'
    subst hs'
    exact h s₀ hphase hlive
  | hookReturned s₀ err errs hphase =>
    intro s hs' hlive
    simp only [Phase.shuttingDown.injEq] at hs'
    subst hs'
    exact h s₀ hphase hlive
  | finished s₀ err errs hphase hleft => exact fun s hs' => (nomatch hs')

-- in the grace period, a caller that is done lets the helper end it at once
variable (app) in
theorem helper_cancels {s : Shutdown} (h : HelperWaits c) (hphase : c.phase = .shuttingDown s)
    (hdone : c.callerDone = true) (hlive : s.ctx = .live) :
    step app c .helper = some { c with phase := .shuttingDown (cancel s) } ∧
      (cancel s).ctx = .canceled := by
  have hhelper := h s hphase hlive
  refine ⟨?_,by simp [cancel,hlive]⟩
  simp [step,inShutdown,hphase,stepHelper,hhelper,hdone]

theorem hooks_run_in_grace (app : Application) (now : Time) (callerErr : Option GoError)
    (specs : String → Option FailureSpec) (acts : List Act) (c : State)
    (hrun : run (step app) acts (started app now callerErr specs) = some c) :
    (Along (step app) (fun c a => undisturbed app c a = true) acts
        (started app now callerErr specs) →
      ∀ s, c.phase = .shuttingDown s → s.ctx ≠ .live → s.began+app.shutdownTimeout ≤ c.now) ∧
    (∀ s, c.phase = .shuttingDown s → c.callerDone = true → s.ctx = .live →
      ∃ c' s', step app c .helper = some c' ∧ c'.phase = .shuttingDown s' ∧ s'.ctx = .canceled ∧
        c'.now = c.now) ∧
    (c.visits ≠ [] → unsent c.goroutines = 0) ∧
    c.visits.map Visit.index <+: (List.range app.shutdownHooks.length).reverse ∧
    (∀ e es, c.phase = .returned e es →
      c.visits.map Visit.index = (List.range app.shutdownHooks.length).reverse) ∧
    ∀ v ∈ c.visits, ∃ hook, app.shutdownHooks[v.index]? = some hook ∧
      (hook.hasFn = false → v.ran = false) ∧
      (hook.hasFn = true → active v.found = false → v.ran = true) := by
  have horderly : Orderly app c := run_reaches (fun _ _ _ => orderly_step)
    (orderly_started now callerErr specs) hrun
  have hwaits : HelperWaits c := run_reaches (fun _ _ _ => helperWaits_step)
    (by simp [HelperWaits,started]) hrun
  refine ⟨fun hP => ?_,?_,?_,?_,horderly.returned,horderly.faithful⟩
  · have hgrace : Grace app c :=
      run_invariant (fun _ _ _ => grace_step) (by simp [Grace,started]) hP hrun
    exact fun s hphase hdone => hgrace s hphase (.inr hdone)
  · intro s hphase hdone hlive
    obtain ⟨hstep,hctx⟩ := helper_cancels app hwaits hphase hdone hlive
    exact ⟨_,_,hstep,rfl,hctx,rfl⟩
  · intro hvisited
    have hall := horderly.all fun hrunning => hvisited (horderly.running hrunning)
    have hcount := horderly.count
    omega
  · cases hphase : c.phase with
    | running =>
      rw [horderly.running hphase]
      exact List.nil_prefix
    | shuttingDown s => exact ⟨_,horderly.stopping s hphase⟩
    | returned e es =>
      have hall := horderly.returned e es hphase
      exact hall ▸ List.prefix_rfl

def oneServer : Application := new (10*second) [⟨"http",true⟩] [⟨"flush-logs",true⟩]

def noFailures : String → Option FailureSpec := fun _ => none

-- the server stops by itself, and the hook takes its ten seconds
def quietStop : List Act :=
  [.runner 0 none,.runner 0 none,.receive,.shutdown,.next,.tick 10000000000]

def contextOfHooks (c : State) : Option (Time × ContextState) :=
  match c.phase with
  | .shuttingDown s => some (s.began,s.ctx)
  | _ => none

theorem quiet_stop_keeps_grace : ∃ c s,
    run (step oneServer) quietStop (started oneServer 0 none noFailures) = some c ∧
    c.phase = .shuttingDown s ∧ s.ctx = .expired ∧ s.began+10*second ≤ c.now ∧
    c.visits.map Visit.ran = [true] ∧ unsent c.goroutines = 0 := by
  have hresult : (run (step oneServer) quietStop (started oneServer 0 none noFailures)).map
      (fun c => (contextOfHooks c,c.visits.map Visit.ran)) = some (some (0,.expired),[true]) := by
    decide +kernel
  obtain ⟨c,hrun,hc⟩ := Option.map_eq_some_iff.mp hresult
  simp only [Prod.mk.injEq] at hc
  obtain ⟨hctx,hran⟩ := hc
  obtain ⟨hgrace,_,hsent,_⟩ := hooks_run_in_grace oneServer 0 none noFailures quietStop c hrun
  have hvisited : c.visits ≠ [] := by
    intro hnil
    simp [hnil] at hran
  cases hphase : c.phase with
  | running => simp [contextOfHooks,hphase] at hctx
  | returned e es => simp [contextOfHooks,hphase] at hctx
  | shuttingDown s =>
    simp only [contextOfHooks,hphase,Option.some.injEq,Prod.mk.injEq] at hctx
    exact ⟨c,s,hrun,hphase,hctx.2,hgrace (by decide +kernel) s hphase (by simp [hctx.2]),hran,
      hsent hvisited⟩

-- the signal that ends the server has cancelled the caller's context
def signalled : List Act :=
  [.runner 0 none,.callerDone .contextCanceled,.runner 0 none,.receive,.shutdown,.next,.helper]

theorem signalled_hook_has_no_grace :
    ¬∀ (app : Application) (now : Time) (callerErr : Option GoError)
      (specs : String → Option FailureSpec) (acts : List Act) (c : State),
      run (step app) acts (started app now callerErr specs) = some c →
      ∀ s, c.phase = .shuttingDown s → s.ctx ≠ .live → s.began+app.shutdownTimeout ≤ c.now := by
  intro hclaim
  have hresult : (run (step oneServer) signalled (started oneServer 0 none noFailures)).map
      (fun c => (contextOfHooks c,c.now)) = some (some (0,.canceled),0) := by
    decide +kernel
  obtain ⟨c,hrun,hc⟩ := Option.map_eq_some_iff.mp hresult
  simp only [Prod.mk.injEq] at hc
  obtain ⟨hctx,hnow⟩ := hc
  cases hphase : c.phase with
  | running => simp [contextOfHooks,hphase] at hctx
  | returned e es => simp [contextOfHooks,hphase] at hctx
  | shuttingDown s =>
    simp only [contextOfHooks,hphase,Option.some.injEq,Prod.mk.injEq] at hctx
    have hle := hclaim oneServer 0 none noFailures signalled c hrun s hphase (by simp [hctx.2])
    rw [hctx.1,hnow] at hle
    exact absurd hle (by decide)

end Hooks

end Nimburion.Core.App
