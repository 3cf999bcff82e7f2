import Nimburion.HTTP.CacheGroup

namespace Nimburion.HTTP.Cache
open Interaction GoTime GoText

section Stages

def panickedLast (tr : List (Event Ans)) : Prop := ∃ x, tr.head? = some ⟨.next x,.panicked⟩

-- the operations a request may ask for at its stage: what leads neither waits nor enters again, and a
-- panic ends it
def stagePre (tr : List (Event Ans)) (op : Op) : Prop :=
  match stageOf tr, op with
  | .idle, .finish .. => False
  | .idle, .forget _ => False
  | .idle, .wait call => ∃ key, tr.head? = some ⟨.enter key,.join call⟩
  | .idle, _ => True
  | .leading _ call, .finish call' _ _ => ¬ panickedLast tr ∧ call' = call
  | .leading .., .now | .leading .., .next _ | .leading .., .set .. => ¬ panickedLast tr
  | .released key _, .forget key' => key' = key
  | _, _ => False

def stagePost (tr : List (Event Ans)) : Prop :=
  match stageOf tr with
  | .leading .. => panickedLast tr
  | .released .. => False
  | _ => True

def staged : Spec Ans := ⟨stagePre,fun _ _ => True⟩

-- the operations that leave the group alone
def Plain : Op → Prop
  | .enter _ | .wait _ | .finish .. | .forget _ => False
  | _ => True

variable {lib : Library} {cfg : Config} {tr : List (Event Ans)} {key : String} {call : ℕ}

theorem stageOf_plain {ev : Event Ans} (h : Plain ev.op) : stageOf (ev :: tr) = stageOf tr := by
  obtain ⟨op,ans⟩ := ev
  cases op <;> first | rfl | cases h

theorem meets_plain {α : Type} {p : Handling α} (h : Prog.Uses Plain p)
    (hidle : stageOf tr = .idle) :
    Prog.Meets staged (fun tr' _ => stageOf tr' = .idle) tr p := by
  refine h.meets (fun tr op hF hop => ?_) (fun ev tr hop hF => (stageOf_plain hop).trans hF) hidle
  change stagePre tr op
  unfold stagePre
  rw [hF]
  cases op <;> trivial

theorem uses_next (xCache : Option String) : Prog.Uses Plain (next xCache) := by
  refine .step (fun _ => trivial) fun o => ?_
  cases o with
  | returned resp => exact .pure _
  | failed e => exact .pure _
  | panicked => exact fun _ => trivial

theorem uses_pass (xCache : Option String) : Prog.Uses Plain (pass xCache) := by
  refine (uses_next xCache).bind fun result => ?_
  cases result with
  | ok resp => exact .pure _
  | error e => exact .pure _

theorem uses_load (key : String) (now : Time) : Prog.Uses Plain (load cfg key now) := by
  refine .step (fun _ => trivial) fun entry => ?_
  cases entry with
  | none => exact .pure _
  | some entry => exact .ite (.pure _) (.ite (.pure _) (.pure _))

theorem uses_serveCached (r : Request) (entry : CacheEntry) (state : String) :
    Prog.Uses Plain (serveCached lib cfg r entry state) := by
  refine .step (fun _ => trivial) fun h => .ite ?_ (.ite ?_ ?_)
  · exact .step (fun _ => trivial) fun _ => .pure _
  · exact .step (fun _ => trivial) fun _ => .pure _
  · exact .perform fun _ => trivial

theorem leading_pre {op : Op} (h : stageOf tr = .leading key call) (hlast : ¬ panickedLast tr)
    (hop : op = .now ∨ (∃ x, op = .next x) ∨ ∃ k e d, op = .set k e d) : stagePre tr op := by
  unfold stagePre
  rw [h]
  rcases hop with rfl | ⟨x,rfl⟩ | ⟨k,e,d,rfl⟩ <;> exact hlast

theorem meets_next (h : stageOf tr = .leading key call) (hlast : ¬ panickedLast tr)
    (xCache : Option String) :
    Prog.Meets staged (fun tr' r => stageOf tr' = .leading key call ∧
      (panickedLast tr' ↔ ∃ e, r = .error e)) tr (next xCache) := by
  refine ⟨leading_pre h hlast (.inr (.inl ⟨xCache,rfl⟩)),fun o _ => ?_⟩
  cases o with
  | returned resp => exact ⟨h,by simp [panickedLast],by simp⟩
  | failed e => exact ⟨h,by simp [panickedLast],by simp⟩
  | panicked => exact ⟨h,fun _ => ⟨_,rfl⟩,fun _ => ⟨xCache,rfl⟩⟩

theorem meets_computeAndStore (h : stageOf tr = .leading key call) (hlast : ¬ panickedLast tr)
    (k : String) :
    Prog.Meets staged (fun tr' r => stageOf tr' = .leading key call ∧
      (panickedLast tr' ↔ ∃ e, r = .error e)) tr (computeAndStore lib cfg k) := by
  unfold computeAndStore
  rw [Prog.meets_bind]
  refine Prog.meets_mono ?_ (meets_next h hlast (some "MISS"))
  rintro tr' (e | result) ⟨hstage,hpanic⟩
  · exact ⟨hstage,hpanic.trans ⟨fun _ => ⟨e,rfl⟩,fun _ => ⟨e,rfl⟩⟩⟩
  have hcalm : ¬ panickedLast tr' := by
    rw [hpanic]
    simp
  cases result with
  | error e => exact ⟨hstage,by simp [hcalm]⟩
  | ok resp =>
    dsimp only
    rw [Prog.meets_ite]
    refine ⟨fun _ => ⟨hstage,by simp [hcalm]⟩,fun _ => ?_⟩
    refine ⟨leading_pre hstage hcalm (.inl rfl),fun fresh _ => ?_⟩
    refine ⟨leading_pre hstage (by simp [panickedLast]) (.inl rfl),fun stale _ => ?_⟩
    refine ⟨leading_pre hstage (by simp [panickedLast]) (.inr (.inr ⟨_,_,_,rfl⟩)),fun stored _ => ?_⟩
    cases stored with
    | true => exact ⟨hstage,by simp [panickedLast]⟩
    | false => exact ⟨hstage,by simp [panickedLast]⟩

theorem meets_Do (h : stageOf tr = .idle) (key : String)
    {fn : Handling (Option CacheEntry × Option GoError)}
    (hfn : ∀ tr call, stageOf tr = .leading key call → ¬ panickedLast tr →
      Prog.Meets staged (fun tr' r => stageOf tr' = .leading key call ∧
        (panickedLast tr' ↔ ∃ e, r = .error e)) tr fn) :
    Prog.Meets staged (fun tr' r => match r with
      | .ok (_,_,true) => stageOf tr' = .idle
      | _ => stagePost tr') tr (Do key fn) := by
  refine ⟨by simp [staged,stagePre,h],fun entered _ => ?_⟩
  cases entered with
  | join call =>
    have hidle : stageOf (⟨.enter key,.join call⟩ :: tr) = .idle := h
    refine ⟨?_,fun result _ => h⟩
    change stagePre _ _
    unfold stagePre
    rw [hidle]
    exact ⟨key,rfl⟩
  | lead call =>
    change Prog.Meets _ _ _ (fn >>= _)
    rw [Prog.meets_bind]
    refine Prog.meets_mono ?_ (hfn _ call rfl (by simp [panickedLast]))
    rintro tr' (e | result) ⟨hstage,hpanic⟩
    · dsimp only
      rw [stagePost,hstage]
      exact hpanic.mpr ⟨e,rfl⟩
    · have hcalm : ¬ panickedLast tr' := by
        rw [hpanic]
        simp
      refine ⟨?_,fun _ _ => ⟨?_,fun _ _ => ?_⟩⟩
      · change stagePre _ _
        unfold stagePre
        rw [hstage]
        exact ⟨hcalm,rfl⟩
      · change stagePre _ _
        simp [stagePre,stageOf,Stage.after,hstage]
      · change stagePost _
        simp [stagePost,stageOf,Stage.after,hstage]

theorem stagePost_idle (h : stageOf tr = .idle) : stagePost tr := by simp [stagePost,h]

theorem meets_quiet {p : Handling (Option GoError)} (hp : Prog.Uses Plain p)
    (h : stageOf tr = .idle) : Prog.Meets staged (fun tr' _ => stagePost tr') tr p :=
  Prog.meets_mono (fun _ _ => stagePost_idle) (meets_plain hp h)

theorem meets_compute (h : stageOf tr = .idle) (r : Request) (key : String) :
    Prog.Meets staged (fun tr' _ => stagePost tr') tr (compute lib cfg r key) := by
  unfold compute
  rw [Prog.meets_bind]
  refine Prog.meets_mono ?_
    (meets_Do h key fun tr call hstage hlast => meets_computeAndStore hstage hlast key)
  rintro tr' (e | ⟨entry,err,shared⟩) hpost
  · exact hpost
  · cases shared with
    | false =>
      cases entry <;> cases err <;> exact hpost
    | true =>
      cases entry with
      | none => exact meets_quiet (uses_pass _) hpost
      | some entry =>
        cases err with
        | none => exact meets_quiet (uses_serveCached r entry "HIT") hpost
        | some e => exact meets_quiet (uses_pass _) hpost

theorem meets_lookup (h : stageOf tr = .idle) (r : Request) (key : String) :
    Prog.Meets staged (fun tr' _ => stagePost tr') tr (lookup lib cfg r key) := by
  refine ⟨by simp [staged,stagePre,h],fun now _ => ?_⟩
  change Prog.Meets _ _ _ (load cfg key now >>= _)
  rw [Prog.meets_bind]
  refine Prog.meets_mono ?_ (meets_plain (uses_load key now) h)
  rintro tr' (e | state) hidle
  · exact stagePost_idle hidle
  · cases state with
    | fresh entry => exact meets_quiet (uses_serveCached r entry "HIT") hidle
    | missing => exact meets_compute hidle r key
    | stale entry =>
      refine ⟨by simp [staged,stagePre,hidle],fun inFlight _ => ?_⟩
      have hidle : stageOf (⟨.inFlight key,inFlight⟩ :: tr') = .idle := hidle
      change Prog.Meets _ _ _ (if inFlight = true then _ else _)
      rw [Prog.meets_ite]
      exact ⟨fun _ => meets_quiet (uses_serveCached r entry "STALE") hidle,
        fun _ => meets_compute hidle r key⟩

theorem meets_middleware (h : stageOf tr = .idle) (r : Request) :
    Prog.Meets staged (fun tr' _ => stagePost tr') tr (middleware lib cfg r) := by
  unfold middleware
  split
  · exact meets_quiet (uses_pass _) h
  · unfold handle
    dsimp only
    split_ifs
    · exact meets_quiet (uses_pass _) h
    · exact meets_quiet (uses_pass _) h
    · exact meets_quiet (uses_pass _) h
    · split
      · exact meets_quiet (uses_pass _) h
      · exact meets_lookup h r _

theorem meets_program (r : Request) :
    Prog.Meets staged (fun tr' _ => stagePost tr') [] ((server lib cfg).program r) := by
  change Prog.Meets _ _ _ (recovery (middleware lib cfg r))
  unfold recovery
  rw [Prog.meets_bind,Prog.meets_attempt]
  refine Prog.meets_mono ?_ (meets_middleware rfl r)
  rintro tr' (⟨⟩ | err) hpost
  · exact hpost
  · exact hpost

end Stages

abbrev Disciplined (c : Requests) : Prop :=
  Machine.ThreadsMeet (fun _ => staged) (fun _ tr _ => stagePost tr) c

theorem disciplined_step {lib : Library} {cfg : Config} {c c' : Requests} {a : Step}
    (h : Disciplined c) (hs : (server lib cfg).step c a = some c') : Disciplined c' :=
  h.step (m := server lib cfg) meets_program (fun _ _ _ _ _ _ _ => trivial) hs

end Nimburion.HTTP.Cache
