import Nimburion.HTTP.CacheStages

namespace Nimburion.HTTP.Cache
open Interaction GoTime GoText

def RequestGroup.bounded (g : RequestGroup) : Prop :=
  ∀ key call, g.m key = some call → call < g.calls.length

-- what a step does to the group and to the stage of the request that takes it
inductive Moves (g : RequestGroup) : Stage → Stage → RequestGroup → Prop
  | still (stage : Stage) : Moves g stage stage g
  | lead (key : String) : g.m key = none →
      Moves g .idle (.leading key g.calls.length) (g.lead key)
  | finish (key : String) (call : ℕ) (entry : Option CacheEntry) (err : Option GoError) :
      Moves g (.leading key call) (.released key call) (g.finish call entry err)
  | forget (key : String) (call : ℕ) :
      Moves g (.released key call) (.left key call) (g.forget key)

section Effects

variable {g g' : RequestGroup} {op : Op} {x : Choice} {ans : Ans op} {tr : List (Event Ans)}

theorem moves_enter {key : String} {ans : Entered} (hpre : stagePre tr (.enter key))
    (h : exec g (.enter key) x = some (ans,g')) :
    Moves g (stageOf tr) (stageOf (⟨.enter key,ans⟩ :: tr)) g' := by
  cases x <;> simp only [exec,reduceCtorEq] at h
  cases hm : g.m key with
  | some call =>
    rw [hm] at h
    cases h
    exact .still _
  | none =>
    rw [hm] at h
    cases h
    unfold stagePre at hpre
    cases hstage : stageOf tr with
    | idle => exact .lead key hm
    | _ => simp [hstage] at hpre

theorem moves_finish {call : ℕ} {entry : Option CacheEntry} {err : Option GoError}
    (hpre : stagePre tr (.finish call entry err)) :
    Moves g (stageOf tr) (stageOf (⟨.finish call entry err,()⟩ :: tr)) (g.finish call entry err) := by
  unfold stagePre at hpre
  cases hstage : stageOf tr with
  | leading key call' =>
    simp only [hstage] at hpre
    rw [hpre.2,stageOf,hstage]
    exact .finish key call' entry err
  | _ => simp [hstage] at hpre

theorem moves_forget {key : String} (hpre : stagePre tr (.forget key)) :
    Moves g (stageOf tr) (stageOf (⟨.forget key,()⟩ :: tr)) (g.forget key) := by
  unfold stagePre at hpre
  cases hstage : stageOf tr with
  | released key' call =>
    simp only [hstage] at hpre
    rw [hpre,stageOf,hstage]
    exact .forget key' call
  | _ => simp [hstage] at hpre

theorem moves_exec (hpre : stagePre tr op) (h : exec g op x = some (ans,g')) :
    Moves g (stageOf tr) (stageOf (⟨op,ans⟩ :: tr)) g' := by
  cases op with
  | enter key => exact moves_enter hpre h
  | finish call entry err =>
    cases x <;> cases h
    exact moves_finish hpre
  | forget key =>
    cases x <;> cases h
    exact moves_forget hpre
  | wait call =>
    cases x <;> simp only [exec,reduceCtorEq] at h
    split at h
    · cases h
      exact .still _
    · cases h
  | _ => cases x <;> cases h <;> exact .still _

end Effects

-- what the group keeps of a request at a stage
def Kept (g : RequestGroup) : Stage → Prop
  | .idle => True
  | .leading _ call => call < g.calls.length
  | .released _ call => g.isReleased call = true
  | .left key call => g.isReleased call = true ∧ g.m key ≠ some call

section Group

variable {g g' : RequestGroup} {s s' : Stage} {call : ℕ}

theorem lt_of_isReleased (h : g.isReleased call = true) : call < g.calls.length := by
  unfold RequestGroup.isReleased at h
  cases hcall : g.calls[call]? with
  | none => simp [hcall] at h
  | some x => exact (List.getElem?_eq_some_iff.mp hcall).1

theorem isReleased_finish (g : RequestGroup) (call : ℕ) (entry : Option CacheEntry)
    (err : Option GoError) (call' : ℕ) : (g.finish call entry err).isReleased call' =
      if call' = call then decide (call < g.calls.length) else g.isReleased call' := by
  unfold RequestGroup.isReleased RequestGroup.finish
  dsimp only
  rw [List.getElem?_modify]
  by_cases heq : call' = call
  · subst heq
    rw [if_pos rfl]
    cases hcall : g.calls[call']? with
    | none => simpa using hcall
    | some x => simpa using (List.getElem?_eq_some_iff.mp hcall).1
  · rw [if_neg heq]
    simp [Ne.symm heq]

theorem Moves.length_le (h : Moves g s s' g') : g.calls.length ≤ g'.calls.length := by
  cases h with
  | still => exact le_refl _
  | lead key _ => simp [RequestGroup.lead]
  | finish key call entry err => simp [RequestGroup.finish]
  | forget key call => exact le_refl _

theorem Moves.isReleased (h : Moves g s s' g') (hr : g.isReleased call = true) :
    g'.isReleased call = true := by
  have hlt := lt_of_isReleased hr
  cases h with
  | still => exact hr
  | lead key _ =>
    unfold RequestGroup.isReleased RequestGroup.lead
    dsimp only
    rw [List.getElem?_append_left hlt]
    exact hr
  | finish key call' entry err =>
    rw [isReleased_finish]
    split_ifs with heq
    · simpa [← heq] using hlt
    · exact hr
  | forget key call' => exact hr

theorem Moves.bounded (h : Moves g s s' g') (hb : g.bounded) : g'.bounded := by
  intro key call hm
  cases h with
  | still => exact hb key call hm
  | lead key' _ =>
    simp only [RequestGroup.lead,List.length_append,List.length_singleton] at hm ⊢
    split_ifs at hm
    · cases hm
      exact Nat.lt_succ_self _
    · exact Nat.lt_succ_of_lt (hb key call hm)
  | finish key' call' entry err =>
    simp only [RequestGroup.finish,List.length_modify] at hm ⊢
    exact hb key call hm
  | forget key' call' =>
    simp only [RequestGroup.forget] at hm ⊢
    split_ifs at hm
    exact hb key call hm

theorem Moves.kept_other (h : Moves g s s' g') {u : Stage} (hu : Kept g u) : Kept g' u := by
  cases u with
  | idle => trivial
  | leading key call => exact lt_of_lt_of_le hu h.length_le
  | released key call => exact h.isReleased hu
  | left key call =>
    refine ⟨h.isReleased hu.1,?_⟩
    have hlt := lt_of_isReleased hu.1
    cases h with
    | still => exact hu.2
    | lead key' _ =>
      simp only [RequestGroup.lead]
      split_ifs
      · simpa using hlt.ne'
      · exact hu.2
    | finish key' call' entry err => exact hu.2
    | forget key' call' =>
      simp only [RequestGroup.forget]
      split_ifs
      · simp
      · exact hu.2

theorem Moves.kept (h : Moves g s s' g') (hs : Kept g s) : Kept g' s' := by
  cases h with
  | still => exact hs
  | lead key _ => simp [Kept,RequestGroup.lead]
  | finish key call entry err =>
    change (g.finish call entry err).isReleased call = true
    rw [isReleased_finish,if_pos rfl]
    exact decide_eq_true hs
  | forget key call => exact ⟨hs,by simp [RequestGroup.forget]⟩

end Group

def holds (key : String) (call : ℕ) (t : Running) : Bool :=
  stageOf t.trace = .leading key call || stageOf t.trace = .released key call

structure Sound (c : Requests) : Prop where
  meets : Disciplined c
  held : ∀ key call, c.threads.countP (holds key call) = if c.shared.m key = some call then 1 else 0
  bounded : c.shared.bounded
  kept : ∀ t ∈ c.threads, Kept c.shared (stageOf t.trace)
  joined : ∀ t ∈ c.threads, ∀ key call, t.trace.head? = some ⟨.enter key,.join call⟩ →
    call < c.shared.calls.length
  led : ∀ call < c.shared.calls.length, c.shared.isReleased call = true ∨
    ∃ t ∈ c.threads, ∃ key, stageOf t.trace = .leading key call
  calm : ∀ t ∈ c.threads, ended t = true → ∀ key call, stageOf t.trace ≠ .leading key call

section Runs

variable {lib : Library} {cfg : Config} {c c' : Requests} {t t' : Running} {i : ℕ}
  {g : RequestGroup}

theorem holds_of_stage (key : String) (call : ℕ) {s : Stage} (h : stageOf t.trace = s) :
    holds key call t = (decide (s = .leading key call) || decide (s = .released key call)) := by
  rw [holds,h]

theorem m_of_holds {key : String} {call : ℕ} (hheld : c.threads.countP (holds key call) =
      if c.shared.m key = some call then 1 else 0) (ht : t ∈ c.threads)
    (h : holds key call t = true) : c.shared.m key = some call := by
  by_contra hm
  rw [if_neg hm,List.countP_eq_zero] at hheld
  exact hheld t ht h

theorem held_exec (hheld : ∀ key call, c.threads.countP (holds key call) =
      if c.shared.m key = some call then 1 else 0) (ht : c.threads[i]? = some t)
    (hmoves : Moves c.shared (stageOf t.trace) (stageOf t'.trace) g) (key : String) (call : ℕ) :
    (c.threads.set i t').countP (holds key call) = if g.m key = some call then 1 else 0 := by
  generalize hs : stageOf t.trace = s at hmoves
  generalize hs' : stageOf t'.trace = s' at hmoves
  have hcount := Machine.countP_set_toNat (holds key call) t' ht
  rw [hheld key call,holds_of_stage key call hs,holds_of_stage key call hs'] at hcount
  cases hmoves with
  | still => exact Nat.add_right_cancel hcount
  | lead key' hnone =>
    simp only [RequestGroup.lead]
    by_cases hkey : key = key'
    · subst hkey
      by_cases hcall : c.shared.calls.length = call
      · simpa [hnone,hcall] using hcount
      · simpa [hnone,hcall] using hcount
    · simpa [hkey,Ne.symm hkey] using hcount
  | finish key' call' entry err =>
    change _ = if c.shared.m key = some call then 1 else 0
    simpa using hcount
  | forget key' call' =>
    have hm : c.shared.m key' = some call' :=
      m_of_holds (hheld key' call') (List.mem_of_getElem? ht) (by simp [holds,hs])
    simp only [RequestGroup.forget]
    by_cases hkey : key = key'
    · subst hkey
      by_cases hcall : call' = call
      · simpa [hm,hcall] using hcount
      · simpa [hm,hcall] using hcount
    · simpa [hkey,Ne.symm hkey] using hcount

theorem held_start (hheld : ∀ key call, c.threads.countP (holds key call) =
      if c.shared.m key = some call then 1 else 0) {u : Running} (hu : u.trace = [])
    (key : String) (call : ℕ) : (c.threads ++ [u]).countP (holds key call) =
      if c.shared.m key = some call then 1 else 0 := by
  have hidle : stageOf u.trace = .idle := by rw [hu]; rfl
  rw [List.countP_append,hheld key call,List.countP_singleton,holds_of_stage key call hidle]
  simp

theorem held_crash (hheld : ∀ key call, c.threads.countP (holds key call) =
      if c.shared.m key = some call then 1 else 0) (ht : c.threads[i]? = some t)
    (key : String) (call : ℕ) :
    (c.threads.set i { t with alive := false }).countP (holds key call) =
      if c.shared.m key = some call then 1 else 0 := by
  have hsame : holds key call { t with alive := false } = holds key call t := rfl
  exact (Machine.countP_set_of_same ht hsame).trans (hheld key call)

theorem joined_exec (h : Sound c) {op : Op} {ans : Ans op} {x : Choice} {key : String} {call : ℕ}
    (hx : exec c.shared op x = some (ans,g))
    (hhead : (⟨op,ans⟩ : Event Ans) = ⟨.enter key,.join call⟩) : call < c.shared.calls.length := by
  cases hhead
  cases x <;> simp only [exec,reduceCtorEq] at hx
  cases hm : c.shared.m key with
  | none =>
    rw [hm] at hx
    cases hx
  | some call' =>
    rw [hm] at hx
    cases hx
    exact h.bounded key _ hm

theorem led_exec (h : Sound c) (ht : c.threads[i]? = some t)
    (hmoves : Moves c.shared (stageOf t.trace) (stageOf t'.trace) g) {call : ℕ}
    (hlt : call < g.calls.length) : g.isReleased call = true ∨
      ∃ u ∈ c.threads.set i t', ∃ key, stageOf u.trace = .leading key call := by
  have hmem : t' ∈ c.threads.set i t' := List.mem_set (List.getElem?_eq_some_iff.mp ht).1 _
  by_cases hold : call < c.shared.calls.length
  · rcases h.led call hold with hr | hled
    · exact .inl (hmoves.isReleased hr)
    · by_cases hkeeps : (∃ key, stageOf t.trace = .leading key call) →
          ∃ key, stageOf t'.trace = .leading key call
      · exact .inr (Machine.exists_mem_set (p := fun u => ∃ key, stageOf u.trace = .leading key call)
          ht hkeeps hled)
      · obtain ⟨⟨key,hs⟩,hgone⟩ := Classical.not_imp.mp hkeeps
        rw [hs] at hmoves
        left
        generalize hs' : stageOf t'.trace = s' at hmoves
        cases hmoves with
        | still => exact absurd ⟨key,hs'⟩ hgone
        | finish _ _ entry err =>
          rw [isReleased_finish,if_pos rfl]
          exact decide_eq_true hold
  · right
    generalize hs : stageOf t.trace = s at hmoves
    generalize hs' : stageOf t'.trace = s' at hmoves
    cases hmoves with
    | still => exact absurd hlt hold
    | lead key _ =>
      have hcall : call = c.shared.calls.length := by
        simp only [RequestGroup.lead,List.length_append,List.length_singleton] at hlt
        omega
      exact ⟨t',hmem,key,hcall ▸ hs'⟩
    | finish _ _ entry err => simp [RequestGroup.finish,hold] at hlt
    | forget _ _ => exact absurd hlt hold

theorem post_of_ended (hmeets : Prog.Meets staged (fun tr _ => stagePost tr) t.trace t.rest)
    (hended : ended t = true) : stagePost t.trace := by
  unfold ended at hended
  cases hrest : t.rest with
  | ret r =>
    rw [hrest] at hmeets
    exact hmeets
  | fail e =>
    rw [hrest] at hmeets
    exact hmeets
  | call op k =>
    rw [hrest] at hended
    cases hended

theorem pre_of_rest (h : Disciplined c) (ht : t ∈ c.threads) {op : Op}
    {k : Ans op → Handling (Option GoError)} (hrest : t.rest = .call op k) : stagePre t.trace op := by
  have hmeets := h t ht
  rw [hrest] at hmeets
  exact hmeets.1

-- the map keeps a call while exactly one request holds it, panicked or not
theorem held_step {a : Step} (hmeets : Disciplined c)
    (hheld : ∀ key call, c.threads.countP (holds key call) =
      if c.shared.m key = some call then 1 else 0)
    (hs : (server lib cfg).step c a = some c') (key : String) (call : ℕ) :
    c'.threads.countP (holds key call) = if c'.shared.m key = some call then 1 else 0 := by
  obtain ⟨r,rfl,rfl⟩ | ⟨i,x,t,op,k,ans,g,rfl,ht,halive,hrest,hx,rfl⟩ | ⟨i,t,rfl,ht,rfl⟩ |
    ⟨e,rfl,rfl⟩ := (server lib cfg).step_cases hs
  · exact held_start hheld rfl key call
  · exact held_exec hheld ht
      (moves_exec (pre_of_rest hmeets (List.mem_of_getElem? ht) hrest) hx) key call
  · exact held_crash hheld ht key call
  · exact hheld key call

-- an operation that ends a leader is its handler's panic
theorem panic_of_ended {op : Op} {ans : Ans op} {x : Choice} {key : String} {call : ℕ}
    (hmeets : Prog.Meets staged (fun tr _ => stagePost tr) t'.trace t'.rest)
    (htrace : t'.trace = ⟨op,ans⟩ :: t.trace) (hended : ended t' = true)
    (hstage : stageOf t'.trace = .leading key call) (hx : exec c.shared op x = some (ans,g)) :
    ∃ xCache, op = .next xCache ∧ x = .handled .panicked ∧ stageOf t.trace = .leading key call := by
  have hpost := post_of_ended hmeets hended
  rw [stagePost,hstage] at hpost
  obtain ⟨xCache,hhead⟩ := hpost
  rw [htrace] at hstage
  rw [htrace,List.head?_cons,Option.some.injEq] at hhead
  cases hhead
  cases x <;> cases hx
  exact ⟨xCache,rfl,rfl,hstage⟩

theorem sound_start (h : Sound c) {u : Running} (hu : u.trace = [])
    (hmeets : Disciplined { c with threads := c.threads ++ [u] }) :
    Sound { c with threads := c.threads ++ [u] } := by
  have hidle : stageOf u.trace = .idle := by rw [hu]; rfl
  have hall : ∀ {P : Running → Prop}, (∀ t ∈ c.threads, P t) → P u → ∀ t ∈ c.threads ++ [u], P t := by
    intro P hold hnew t ht
    rcases List.mem_append.mp ht with ht | ht
    · exact hold t ht
    · exact List.mem_singleton.mp ht ▸ hnew
  refine ⟨hmeets,held_start h.held hu,h.bounded,hall h.kept ?_,hall h.joined ?_,
    fun call hlt => ?_,hall h.calm ?_⟩
  · rw [hidle]
    trivial
  · simp [hu]
  · refine (h.led call hlt).imp_right ?_
    rintro ⟨t,ht,hlead⟩
    exact ⟨t,List.mem_append_left _ ht,hlead⟩
  · simp [hidle]

theorem sound_crash (h : Sound c) (ht : c.threads[i]? = some t)
    (hmeets : Disciplined { c with threads := c.threads.set i { t with alive := false } }) :
    Sound { c with threads := c.threads.set i { t with alive := false } } := by
  have hmem := List.mem_of_getElem? ht
  refine ⟨hmeets,held_crash h.held ht,h.bounded,Machine.forall_mem_set h.kept (h.kept t hmem),
    Machine.forall_mem_set h.joined (h.joined t hmem),fun call hlt => ?_,
    Machine.forall_mem_set h.calm (h.calm t hmem)⟩
  · rcases h.led call hlt with hr | hled
    · exact .inl hr
    · refine .inr (Machine.exists_mem_set
        (p := fun u => ∃ key, stageOf u.trace = .leading key call) ht ?_ hled)
      exact fun hlead => hlead

theorem sound_step {a : Step} (h : Sound c) (hreturns : leaderReturns c a = true)
    (hs : (server lib cfg).step c a = some c') : Sound c' := by
  have hmeets := disciplined_step h.meets hs
  obtain ⟨r,rfl,rfl⟩ | ⟨i,x,t,op,k,ans,g,rfl,ht,halive,hrest,hx,rfl⟩ | ⟨i,t,rfl,ht,rfl⟩ |
    ⟨e,rfl,rfl⟩ := (server lib cfg).step_cases hs
  · exact sound_start h rfl hmeets
  · have hmem := List.mem_of_getElem? ht
    have hmoves : Moves c.shared (stageOf t.trace) (stageOf (⟨op,ans⟩ :: t.trace)) g :=
      moves_exec (pre_of_rest h.meets hmem hrest) hx
    refine ⟨hmeets,held_exec h.held ht hmoves,hmoves.bounded h.bounded,?_,?_,
      fun call hlt => led_exec h ht hmoves hlt,?_⟩
    · exact Machine.forall_mem_set (fun u hu => hmoves.kept_other (h.kept u hu))
        (hmoves.kept (h.kept t hmem))
    · refine Machine.forall_mem_set
        (fun u hu key call hhead => lt_of_lt_of_le (h.joined u hu key call hhead) hmoves.length_le) ?_
      intro key call hhead
      exact lt_of_lt_of_le (joined_exec h hx (Option.some.inj hhead)) hmoves.length_le
    · refine Machine.forall_mem_set h.calm fun hended key call hstage => ?_
      obtain ⟨xCache,rfl,rfl,hlead⟩ := panic_of_ended (t := t)
        (hmeets _ (List.mem_set (List.getElem?_eq_some_iff.mp ht).1 _)) rfl hended hstage hx
      rw [leaderReturns,Config.next_exec ht halive hrest] at hreturns
      simp [leads,hlead,Stage.leads] at hreturns
  · exact sound_crash h ht hmeets
  · exact h

theorem joined_of_wait {tr : List (Event Ans)} {call : ℕ} (h : stagePre tr (.wait call)) :
    ∃ key, tr.head? = some ⟨.enter key,.join call⟩ := by
  unfold stagePre at h
  cases hstage : stageOf tr with
  | idle => simpa only [hstage] using h
  | _ => simp [hstage] at h

-- a leader goes on, and waits for nobody
theorem running_of_leading {key : String} {call : ℕ} (h : Sound c) (ht : t ∈ c.threads)
    (hstage : stageOf t.trace = .leading key call) : ended t = false ∧ waitsFor t = none := by
  have hgoes : ended t = false := by
    by_contra hended
    exact h.calm t ht (by simpa using hended) key call hstage
  refine ⟨hgoes,?_⟩
  unfold waitsFor
  split
  · rename_i call' k hrest
    have hpre := pre_of_rest h.meets ht hrest
    simp [stagePre,hstage] at hpre
  · rfl

theorem unwedged_of_sound (h : Sound c) : unwedged c = true := by
  refine List.all_eq_true.mpr fun t ht => ?_
  rw [Bool.and_eq_true]
  constructor
  · cases hended : ended t with
    | false => rfl
    | true =>
      have hpost := post_of_ended (h.meets t ht) hended
      have hkept := h.kept t ht
      unfold leads
      cases hstage : stageOf t.trace with
      | idle => rfl
      | leading key call => exact absurd hstage (h.calm t ht hended key call)
      | released key call =>
        rw [stagePost,hstage] at hpost
        exact hpost.elim
      | left key call =>
        rw [hstage] at hkept
        simp [Stage.leads,hkept.1,hkept.2]
  · rw [Option.all_eq_true]
    intro call hwait
    obtain ⟨k,hrest⟩ : ∃ k, t.rest = .call (.wait call) k := by
      unfold waitsFor at hwait
      split at hwait
      · cases hwait
        exact ⟨_,‹_›⟩
      · cases hwait
    obtain ⟨key,hhead⟩ := joined_of_wait (pre_of_rest h.meets ht hrest)
    rw [Bool.or_eq_true]
    refine (h.led call (h.joined t ht key call hhead)).imp_right ?_
    rintro ⟨u,hu,key',hstage⟩
    refine List.any_eq_true.mpr ⟨u,hu,?_⟩
    simp [leads,hstage,Stage.leads,running_of_leading h hu hstage]

theorem leading_of_next {xCache : Option String} (hpre : stagePre t.trace (.next xCache))
    (hleads : (leads t).isNone = false) :
    ∃ key call, stageOf t.trace = .leading key call := by
  unfold stagePre at hpre
  cases hstage : stageOf t.trace with
  | idle => simp [leads,hstage,Stage.leads] at hleads
  | leading key call => exact ⟨key,call,rfl⟩
  | released key call => simp [hstage] at hpre
  | left key call => simp [hstage] at hpre

theorem returns_of_blocked {a : Step} (hs : (server lib cfg).step c a = none) :
    leaderReturns c a = true := by
  unfold leaderReturns
  split
  · rename_i t xCache hnext
    obtain ⟨i,rfl,ht,halive,k,hrest⟩ := Config.of_next hnext
    rw [(server lib cfg).step_exec ht halive hrest rfl] at hs
    cases hs
  · rfl

theorem ended_of_panicked {key : String} {call : ℕ} {xCache : Option String}
    {tr : List (Event Ans)} {rest : Handling (Option GoError)} (r : Request) (alive : Bool)
    (hmeets : Prog.Meets staged (fun tr _ => stagePost tr) (⟨.next xCache,.panicked⟩ :: tr) rest)
    (hstage : stageOf tr = .leading key call) :
    ended ⟨r,rest,⟨.next xCache,.panicked⟩ :: tr,alive⟩ = true := by
  cases rest with
  | ret result => rfl
  | fail e => rfl
  | call op k =>
    have hpre : stagePre (⟨.next xCache,.panicked⟩ :: tr) op := hmeets.1
    have hlast : panickedLast (⟨.next xCache,.panicked⟩ :: tr) := ⟨xCache,rfl⟩
    have hlead : stageOf (⟨.next xCache,.panicked⟩ :: tr) = .leading key call := hstage
    unfold stagePre at hpre
    rw [hlead] at hpre
    cases op <;> simp_all

theorem wedged_of_panic {a : Step} (h : Sound c) (hs : (server lib cfg).step c a = some c')
    (hpanic : leaderReturns c a = false) : unwedged c' = false := by
  have hmeets := disciplined_step h.meets hs
  unfold leaderReturns at hpanic
  split at hpanic
  · rename_i t xCache hnext
    obtain ⟨i,rfl,_⟩ := Config.of_next hnext
    obtain ⟨_,hmem,hlt,k,ans,g,hrest,hx,rfl⟩ := (server lib cfg).step_of_next hnext hs
    cases hx
    obtain ⟨key,call,hstage⟩ := leading_of_next (pre_of_rest h.meets hmem hrest) hpanic
    have hm : c.shared.m key = some call :=
      m_of_holds (h.held key call) hmem (by simp [holds,hstage])
    have hmem' := List.mem_set hlt (⟨t.call,k .panicked,⟨.next xCache,.panicked⟩ :: t.trace,t.alive⟩ :
      Running)
    have hended := ended_of_panicked t.call t.alive (hmeets _ hmem') hstage
    refine List.all_eq_false.mpr ⟨_,hmem',?_⟩
    simp [hended,leads,stageOf,Stage.after,hstage,Stage.leads,hm]
  · cases hpanic

end Runs

theorem stampede_group_unwedged_iff (lib : Library) (cfg : Config) (acts : List Step) :
    (server lib cfg).Along (fun c a => unwedgedAfter lib cfg c a = true) acts ⟨newRequestGroup,[]⟩ ↔
      (server lib cfg).Along (fun c a => leaderReturns c a = true) acts ⟨newRequestGroup,[]⟩ := by
  refine (server lib cfg).along_congr (I := Sound) (fun c a h => ?_)
    (fun c a c' h hreturns hs => sound_step h hreturns hs) ?_
  · unfold unwedgedAfter
    cases hs : (server lib cfg).step c a with
    | none => exact ⟨fun _ => returns_of_blocked hs,fun _ => rfl⟩
    | some c' =>
      constructor
      · intro hun
        by_contra hpanic
        have hwedged := wedged_of_panic h hs (by simpa using hpanic)
        dsimp only at hun
        rw [hwedged] at hun
        cases hun
      · exact fun hreturns => unwedged_of_sound (sound_step h hreturns hs)
  · exact ⟨by simp [Disciplined,Machine.ThreadsMeet],by simp [newRequestGroup],
      by simp [RequestGroup.bounded,newRequestGroup],by simp,by simp,by simp [newRequestGroup],by simp⟩

section Examples

def cached : Config := { defaultConfig with enabled := true, hasStore := true }

def report : Request := ⟨"GET","/report",fun _ => "",fun _ => "",[],none⟩

-- the first request leads and its handler panics; the second joins its call
def panics : List Step :=
  [.start report,.exec 0 (.time 0),.exec 0 (.failed (.text "cache miss")),.exec 0 .go,
    .exec 0 (.handled .panicked),
    .start report,.exec 1 (.time 0),.exec 1 (.failed (.text "cache miss")),.exec 1 .go]

theorem panic_wedges_key :
    ((server asciiLibrary cached).run panics ⟨newRequestGroup,[]⟩).map (fun c =>
      (c.threads.map ended,c.shared.m "http-cache:GET:/report:",c.shared.isReleased 0,
        c.threads.map waitsFor)) = some ([true,false],some 0,false,[none,some 0]) ∧
    ¬ (server asciiLibrary cached).Along (fun c a => unwedgedAfter asciiLibrary cached c a = true) panics
      ⟨newRequestGroup,[]⟩ :=
  ⟨by decide +kernel,by decide +kernel⟩

end Examples

end Nimburion.HTTP.Cache
