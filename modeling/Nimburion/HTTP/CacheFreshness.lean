import Nimburion.HTTP.CacheStampede
import Nimburion.Lib.InteractionTrace

namespace Nimburion.HTTP.Cache.Freshness
open Interaction GoTime GoText

-- the group beside the clock and a store that answers with the last entry set for a key, or misses
structure World where
  group : RequestGroup
  store : String → Option CacheEntry
  clock : Time

-- a lost write is reported as failed and yet stored
inductive Reply where
  | go
  | failed (e : GoError)
  | lost (e : GoError)
  | handled (o : Outcome)
  | headers (h : Header)
  deriving DecidableEq, Repr

namespace World

def start (clock : Time) : World := ⟨newRequestGroup,fun _ => none,clock⟩

def put (w : World) (key : String) (entry : CacheEntry) : World :=
  { w with store := fun k => if k = key then some entry else w.store k }

def inGroup (w : World) (op : Op) : Option (Ans op × World) :=
  (Cache.exec w.group op .go).map fun r => (r.1,{ w with group := r.2 })

def exec (w : World) : (op : Op) → Reply → Option (Ans op × World)
  | .now, .go => some (w.clock,w)
  | .get key, .go => some (w.store key,w)
  | .get _, .failed _ => some (none,w)
  | .inFlight key, .go => w.inGroup (.inFlight key)
  | .enter key, .go => w.inGroup (.enter key)
  | .wait call, .go => w.inGroup (.wait call)
  | .next _, .handled o => some (o,w)
  | .set key entry _, .go => some (true,w.put key entry)
  | .set .., .failed _ => some (false,w)
  | .set key entry _, .lost _ => some (false,w.put key entry)
  | .finish call entry err, .go => w.inGroup (.finish call entry err)
  | .forget key, .go => w.inGroup (.forget key)
  | .header, .headers h => some (h,w)
  | .respond .., .go => some (none,w)
  | .respond .., .failed e => some (some e,w)
  | _, _ => none

end World

abbrev Site := Interaction.Config Ans Panic World Request (Option GoError)

-- the environment lets time pass
abbrev Act := Action Request Reply ℕ

def site (lib : Library) (cfg : Config) :
    Machine Ans Panic World Request (Option GoError) Reply ℕ where
  program r := recovery (middleware lib cfg r)
  exec := World.exec
  env w d := { w with clock := w.clock+d }

def opening (clock : Time) : Site := ⟨World.start clock,[]⟩

section Origins

variable (lib : Library) (cfg : Config)

-- a leader's trace when it has stamped the entry of its handler's response
def Stamped (key : String) (call : ℕ) (entry : CacheEntry) (resp : Response) (fresh stale : Time)
    (tr : List (Event Ans)) : Prop :=
  resp.status = 200 ∧ entry = buildEntry lib cfg resp fresh stale ∧ ∃ xCache before,
    tr = ⟨.now,stale⟩ :: ⟨.now,fresh⟩ :: ⟨.next xCache,.returned resp⟩ ::
      ⟨.enter key,.lead call⟩ :: before

-- some request for the key led the call and made the entry of its handler's response
def Made (threads : List Running) (key : String) (call : ℕ) (entry : CacheEntry) (resp : Response)
    (fresh stale : Time) : Prop :=
  ∃ t ∈ threads, buildCacheKey lib t.call cfg = .ok key ∧
    ∃ tr, tr <:+ t.trace ∧ Stamped lib cfg key call entry resp fresh stale tr

def Cached (threads : List Running) (key : String) (call : ℕ) (entry : CacheEntry) : Prop :=
  ∃ resp fresh stale, Made lib cfg threads key call entry resp fresh stale

-- the ways to a cached response
inductive Path (key : String) (entry : CacheEntry) : List (Event Ans) → Prop
  | fresh (h : Header) (now : Time) : now ≤ entry.freshUntil →
      Path key entry [⟨.header,h⟩,⟨.get key,some entry⟩,⟨.now,now⟩]
  | stale (h : Header) (now : Time) : now < entry.staleUntil →
      Path key entry [⟨.header,h⟩,⟨.inFlight key,true⟩,⟨.get key,some entry⟩,⟨.now,now⟩]
  | shared (h : Header) (call : ℕ) (before : List (Event Ans)) : stageOf before = .idle →
      Path key entry (⟨.header,h⟩ :: ⟨.wait call,(some entry,none)⟩ :: ⟨.enter key,.join call⟩ :: before)

def Shows (entry : CacheEntry) (status : Int) (body : Option String) : Prop :=
  (status = 304 ∨ status = entry.statusCode) ∧ (body = none ∨ body = some entry.body)

def provenance (r : Request) : Spec Ans where
  pre tr op := match op with
    | .set key entry _ => buildCacheKey lib r cfg = .ok key ∧ ∃ call resp fresh stale,
        Stamped lib cfg key call entry resp fresh stale tr
    | .finish call (some entry) none => ∃ key ttl tr' resp fresh stale,
        tr = ⟨.set key entry ttl,true⟩ :: tr' ∧ buildCacheKey lib r cfg = .ok key ∧
          Stamped lib cfg key call entry resp fresh stale tr'
    | .respond status _ body => ∃ key entry, buildCacheKey lib r cfg = .ok key ∧
        Shows entry status body ∧ Path key entry tr
    | _ => True
  ans _ _ := True

end Origins

section Programs

variable {lib : Library} {cfg : Config} {r : Request} {key : String} {entry : CacheEntry}
  {tr : List (Event Ans)}

theorem meets_next (xCache : Option String) {post : List (Event Ans) → Except Panic _ → Prop}
    (hok : ∀ resp, post (⟨.next xCache,.returned resp⟩ :: tr) (.ok (.ok resp)))
    (hfailed : ∀ e, post (⟨.next xCache,.failed e⟩ :: tr) (.ok (.error e)))
    (hpanic : post (⟨.next xCache,.panicked⟩ :: tr) (.error .handler)) :
    Prog.Meets (provenance lib cfg r) post tr (next xCache) := by
  refine ⟨trivial,fun o _ => ?_⟩
  cases o with
  | returned resp => exact hok resp
  | failed e => exact hfailed e
  | panicked => exact hpanic

theorem meets_pass (xCache : Option String) :
    Prog.Meets (provenance lib cfg r) (fun _ _ => True) tr (pass xCache) := by
  unfold pass
  rw [Prog.meets_bind]
  exact meets_next xCache (fun _ => trivial) (fun _ => trivial) trivial

theorem meets_serveCached (hkey : buildCacheKey lib r cfg = .ok key)
    (hpath : ∀ h, Path key entry (⟨.header,h⟩ :: tr)) (state : String) :
    Prog.Meets (provenance lib cfg r) (fun _ _ => True) tr (serveCached lib cfg r entry state) := by
  unfold serveCached
  refine ⟨trivial,fun h _ => ?_⟩
  have hserved : ∀ status body, Shows entry status body →
      ∃ key entry, buildCacheKey lib r cfg = .ok key ∧ Shows entry status body ∧
        Path key entry (⟨.header,h⟩ :: tr) :=
    fun _ _ hshows => ⟨key,entry,hkey,hshows,hpath h⟩
  change Prog.Meets _ _ _ (ite _ _ _)
  rw [Prog.meets_ite,Prog.meets_ite]
  refine ⟨fun _ => ?_,fun _ => ⟨fun _ => ?_,fun _ => ?_⟩⟩
  · exact ⟨hserved _ _ ⟨.inl rfl,.inl rfl⟩,fun _ _ => trivial⟩
  · exact ⟨hserved _ _ ⟨.inr rfl,.inl rfl⟩,fun _ _ => trivial⟩
  · exact ⟨hserved _ _ ⟨.inr rfl,.inr rfl⟩,fun _ _ => trivial⟩

-- what the leader of a call hands to those who wait for it
def Handed (lib : Library) (cfg : Config) (key : String) (call : ℕ) (tr : List (Event Ans)) :
    Except Panic (Option CacheEntry × Option GoError) → Prop
  | .ok (some entry,_) => ∃ ttl tr' resp fresh stale, tr = ⟨.set key entry ttl,true⟩ :: tr' ∧
      Stamped lib cfg key call entry resp fresh stale tr'
  | _ => True

theorem meets_computeAndStore (hkey : buildCacheKey lib r cfg = .ok key) (call : ℕ) :
    Prog.Meets (provenance lib cfg r) (Handed lib cfg key call) (⟨.enter key,.lead call⟩ :: tr)
      (computeAndStore lib cfg key) := by
  unfold computeAndStore
  rw [Prog.meets_bind]
  refine meets_next (some "MISS") (fun resp => ?_) (fun _ => trivial) trivial
  dsimp only
  rw [Prog.meets_ite]
  refine ⟨fun _ => trivial,fun hstatus => ⟨trivial,fun fresh _ => ⟨trivial,fun stale _ => ?_⟩⟩⟩
  have hstamped : Stamped lib cfg key call (buildEntry lib cfg resp fresh stale) resp fresh stale
      (⟨.now,stale⟩ :: ⟨.now,fresh⟩ :: ⟨.next (some "MISS"),.returned resp⟩ ::
        ⟨.enter key,.lead call⟩ :: tr) :=
    ⟨not_not.mp hstatus,rfl,_,_,rfl⟩
  refine ⟨⟨hkey,call,resp,fresh,stale,hstamped⟩,fun stored _ => ?_⟩
  cases stored with
  | true => exact ⟨_,_,resp,fresh,stale,rfl,hstamped⟩
  | false => trivial

theorem meets_compute (hkey : buildCacheKey lib r cfg = .ok key) (hidle : stageOf tr = .idle) :
    Prog.Meets (provenance lib cfg r) (fun _ _ => True) tr (compute lib cfg r key) := by
  unfold compute Do
  rw [Prog.meets_bind]
  refine ⟨trivial,fun entered _ => ?_⟩
  cases entered with
  | join call =>
    refine ⟨trivial,fun result _ => ?_⟩
    obtain ⟨entry,err⟩ := result
    cases entry with
    | none => exact meets_pass _
    | some entry =>
      cases err with
      | none => exact meets_serveCached hkey (fun h => .shared h call tr hidle) "HIT"
      | some e => exact meets_pass _
  | lead call =>
    change Prog.Meets _ _ _ (computeAndStore lib cfg key >>= _)
    rw [Prog.meets_bind]
    refine Prog.meets_mono ?_ (meets_computeAndStore hkey call)
    rintro tr' (e | ⟨entry,err⟩) hhanded
    · trivial
    · refine ⟨?_,fun _ _ => ⟨trivial,fun _ _ => ?_⟩⟩
      · cases entry with
        | none => trivial
        | some entry =>
          cases err with
          | some e => trivial
          | none =>
            obtain ⟨ttl,tr'',resp,fresh,stale,htr,hstamped⟩ := hhanded
            exact ⟨key,ttl,tr'',resp,fresh,stale,htr,hkey,hstamped⟩
      · cases entry <;> cases err <;> trivial

theorem meets_load (key : String) (now : Time)
    {post : List (Event Ans) → Except Panic EntryState → Prop}
    (hfresh : ∀ entry : CacheEntry, now ≤ entry.freshUntil →
      post (⟨.get key,some entry⟩ :: tr) (.ok (.fresh entry)))
    (hstale : ∀ entry : CacheEntry, now < entry.staleUntil →
      post (⟨.get key,some entry⟩ :: tr) (.ok (.stale entry)))
    (hmissing : ∀ found, post (⟨.get key,found⟩ :: tr) (.ok .missing)) :
    Prog.Meets (provenance lib cfg r) post tr (load cfg key now) := by
  unfold load
  refine ⟨trivial,fun found _ => ?_⟩
  cases found with
  | none => exact hmissing none
  | some entry =>
    change Prog.Meets _ _ _ (ite _ _ _)
    rw [Prog.meets_ite,Prog.meets_ite]
    exact ⟨hfresh entry,fun _ => ⟨fun h => hstale entry h.2,fun _ => hmissing (some entry)⟩⟩

theorem meets_lookup (hkey : buildCacheKey lib r cfg = .ok key) :
    Prog.Meets (provenance lib cfg r) (fun _ _ => True) [] (lookup lib cfg r key) := by
  unfold lookup
  refine ⟨trivial,fun now _ => ?_⟩
  change Prog.Meets _ _ _ (load cfg key now >>= _)
  rw [Prog.meets_bind]
  refine meets_load key now (fun entry hfresh => ?_) (fun entry hstale => ?_) (fun found => ?_)
  · exact meets_serveCached hkey (fun h => .fresh h now hfresh) "HIT"
  · refine ⟨trivial,fun inFlight _ => ?_⟩
    cases inFlight with
    | true => exact meets_serveCached hkey (fun h => .stale h now hstale) "STALE"
    | false => exact meets_compute hkey rfl
  · exact meets_compute hkey rfl

theorem meets_program (r : Request) :
    Prog.Meets (provenance lib (normalizeConfig cfg) r) (fun _ _ => True) []
      ((site lib cfg).program r) := by
  change Prog.Meets _ _ _ (recovery (middleware lib cfg r))
  unfold recovery
  rw [Prog.meets_bind,Prog.meets_attempt]
  have hmeets : Prog.Meets (provenance lib (normalizeConfig cfg) r) (fun _ _ => True) []
      (middleware lib cfg r) := by
    unfold middleware
    split
    · exact meets_pass _
    · unfold handle
      dsimp only
      split_ifs
      · exact meets_pass _
      · exact meets_pass _
      · exact meets_pass _
      · split
        · exact meets_pass _
        · exact meets_lookup ‹_›
  refine Prog.meets_mono ?_ hmeets
  rintro tr' (⟨⟩ | err) _
  · trivial
  · trivial

end Programs

-- what a request is told by the world
def Answered (w : World) : Event Ans → Prop
  | ⟨.get key,some entry⟩ => w.store key = some entry
  | ⟨.inFlight key,busy⟩ => busy = (w.group.m key).isSome
  | ⟨.wait call,(some entry,none)⟩ => w.group.calls[call]? = some ⟨true,some entry,none⟩
  | ⟨.enter key,.join call⟩ => w.group.m key = some call
  | ⟨.enter _,.lead _⟩ | ⟨.finish ..,_⟩ | ⟨.forget _,_⟩ => False
  | _ => True

inductive Effect (w : World) : Event Ans → World → Prop
  | quiet {ev : Event Ans} : Answered w ev → Effect w ev w
  | lead (key : String) : w.group.m key = none →
      Effect w ⟨.enter key,.lead w.group.calls.length⟩ { w with group := w.group.lead key }
  | put (key : String) (entry : CacheEntry) (ttl : Duration) (stored : Bool) :
      Effect w ⟨.set key entry ttl,stored⟩ (w.put key entry)
  | finish (call : ℕ) (entry : Option CacheEntry) (err : Option GoError) :
      Effect w ⟨.finish call entry err,()⟩ { w with group := w.group.finish call entry err }
  | forget (key : String) :
      Effect w ⟨.forget key,()⟩ { w with group := w.group.forget key }

section Effects

variable {w w' : World} {op : Op} {x : Reply} {ans : Ans op}

theorem of_inGroup (h : w.inGroup op = some (ans,w')) :
    ∃ g, Cache.exec w.group op .go = some (ans,g) ∧ w' = { w with group := g } := by
  unfold World.inGroup at h
  rw [Option.map_eq_some_iff] at h
  obtain ⟨⟨ans',g⟩,hg,heq⟩ := h
  cases heq
  exact ⟨g,hg,rfl⟩

theorem effect_enter {key : String} {ans : Entered} (h : w.inGroup (.enter key) = some (ans,w')) :
    Effect w ⟨.enter key,ans⟩ w' := by
  obtain ⟨g,hg,rfl⟩ := of_inGroup h
  simp only [Cache.exec] at hg
  cases hm : w.group.m key with
  | some call =>
    rw [hm] at hg
    cases hg
    exact .quiet hm
  | none =>
    rw [hm] at hg
    cases hg
    exact .lead key hm

theorem effect_wait {call : ℕ} {ans : Option CacheEntry × Option GoError}
    (h : w.inGroup (.wait call) = some (ans,w')) : Effect w ⟨.wait call,ans⟩ w' := by
  obtain ⟨g,hg,rfl⟩ := of_inGroup h
  simp only [Cache.exec] at hg
  split at hg
  · rename_i entry err hcall
    cases hg
    refine .quiet ?_
    cases entry <;> cases err <;> first | exact hcall | trivial
  · cases hg

theorem effect_exec (h : w.exec op x = some (ans,w')) : Effect w ⟨op,ans⟩ w' := by
  cases op with
  | enter key =>
    cases x <;> simp only [World.exec,reduceCtorEq] at h
    exact effect_enter h
  | wait call =>
    cases x <;> simp only [World.exec,reduceCtorEq] at h
    exact effect_wait h
  | get key =>
    cases x <;> cases h
    · refine .quiet ?_
      cases hfound : w.store key with
      | none => trivial
      | some entry => exact hfound
    · exact .quiet trivial
  | set key entry ttl =>
    cases x <;> cases h
    · exact .put key entry ttl true
    · exact .quiet trivial
    · exact .put key entry ttl false
  | inFlight key =>
    cases x <;> cases h
    exact .quiet rfl
  | finish call entry err =>
    cases x <;> cases h
    exact .finish call entry err
  | forget key =>
    cases x <;> cases h
    exact .forget key
  | _ => cases x <;> cases h <;> exact .quiet trivial

theorem Effect.checked {key : String} (h : Effect w ⟨.inFlight key,true⟩ w') :
    ∃ call, w.group.m key = some call := by
  cases h with
  | quiet hanswered => exact Option.isSome_iff_exists.mp hanswered.symm

theorem Effect.joined {key : String} {call : ℕ} (h : Effect w ⟨.enter key,.join call⟩ w') :
    w.group.m key = some call := by
  cases h with
  | quiet hanswered => exact hanswered

-- the group of the site moves as the server's does
theorem group_exec (h : w.exec op x = some (ans,w')) :
    ∃ y, Cache.exec w.group op y = some (ans,w'.group) := by
  cases op with
  | get key =>
    cases x <;> cases h
    · cases w.store key with
      | none => exact ⟨.failed (.text ""),rfl⟩
      | some entry => exact ⟨.loaded entry,rfl⟩
    · exact ⟨.failed (.text ""),rfl⟩
  | now =>
    cases x <;> cases h
    exact ⟨.time w.clock,rfl⟩
  | next xCache =>
    cases x <;> cases h
    exact ⟨.handled ans,rfl⟩
  | set key entry ttl =>
    cases x <;> cases h
    · exact ⟨.go,rfl⟩
    · exact ⟨.failed (.text ""),rfl⟩
    · exact ⟨.failed (.text ""),rfl⟩
  | header =>
    cases x <;> cases h
    exact ⟨.headers ans,rfl⟩
  | respond status header body =>
    cases x <;> cases h
    · exact ⟨.go,rfl⟩
    · rename_i e
      exact ⟨.failed e,rfl⟩
  | _ =>
    cases x <;> simp only [World.exec,reduceCtorEq] at h
    obtain ⟨g,hg,rfl⟩ := of_inGroup h
    exact ⟨.go,hg⟩

end Effects

def Grows (threads threads' : List Running) : Prop :=
  ∀ t ∈ threads, ∃ t' ∈ threads', t'.call = t.call ∧ t.trace <:+ t'.trace

section Told

variable (lib : Library) (cfg : Config)

-- with the key of each call so far: what an event of a request says of where entries come from
def Told (keys : ℕ → String) (n : ℕ) (threads : List Running) : Event Ans → Prop
  | ⟨.enter key,.lead call⟩ => keys call = key ∧ call < n
  | ⟨.enter key,.join call⟩ => keys call = key ∧ call < n
  | ⟨.get key,some entry⟩ => ∃ call, Cached lib cfg threads key call entry
  | ⟨.wait call,(some entry,none)⟩ => call < n ∧ Cached lib cfg threads (keys call) call entry
  | _ => True

structure Traced (keys : ℕ → String) (c : Site) : Prop where
  named : ∀ key call, c.shared.group.m key = some call →
    keys call = key ∧ call < c.shared.group.calls.length
  told : ∀ t ∈ c.threads, ∀ ev ∈ t.trace,
    Told lib cfg keys c.shared.group.calls.length c.threads ev
  released : ∀ call entry, c.shared.group.calls[call]? = some ⟨true,some entry,none⟩ →
    Cached lib cfg c.threads (keys call) call entry
  stored : ∀ key entry, c.shared.store key = some entry →
    ∃ call, Cached lib cfg c.threads key call entry

end Told

section Steps

variable {lib : Library} {cfg : Config} {keys keys' : ℕ → String} {n n' : ℕ}
  {threads threads' : List Running} {w w' : World} {ev : Event Ans}

theorem Cached.grows {key : String} {call : ℕ} {entry : CacheEntry}
    (h : Cached lib cfg threads key call entry) (hgrows : Grows threads threads') :
    Cached lib cfg threads' key call entry := by
  obtain ⟨resp,fresh,stale,t,ht,hkey,tr,htr,hstamped⟩ := h
  obtain ⟨t',ht',hcall,hsuffix⟩ := hgrows t ht
  exact ⟨resp,fresh,stale,t',ht',hcall ▸ hkey,tr,htr.trans hsuffix,hstamped⟩

theorem Told.mono (h : Told lib cfg keys n threads ev) (hgrows : Grows threads threads')
    (hkeys : ∀ call < n, keys' call = keys call) (hn : n ≤ n') :
    Told lib cfg keys' n' threads' ev := by
  unfold Told at h ⊢
  split at h
  · exact ⟨(hkeys _ h.2).trans h.1,lt_of_lt_of_le h.2 hn⟩
  · exact ⟨(hkeys _ h.2).trans h.1,lt_of_lt_of_le h.2 hn⟩
  · obtain ⟨call,hcached⟩ := h
    exact ⟨call,hcached.grows hgrows⟩
  · refine ⟨lt_of_lt_of_le h.1 hn,?_⟩
    rw [hkeys _ h.1]
    exact h.2.grows hgrows
  · trivial

theorem Traced.tells (h : Traced lib cfg keys ⟨w,threads⟩) (hanswered : Answered w ev) :
    Told lib cfg keys w.group.calls.length threads ev := by
  obtain ⟨op,ans⟩ := ev
  cases op with
  | get key =>
    cases ans with
    | none => trivial
    | some entry => exact h.stored key entry hanswered
  | wait call =>
    obtain ⟨entry,err⟩ := ans
    cases entry with
    | none => trivial
    | some entry =>
      cases err with
      | none => exact ⟨(List.getElem?_eq_some_iff.mp hanswered).1,h.released call entry hanswered⟩
      | some e => trivial
  | enter key =>
    cases ans with
    | lead call => exact hanswered.elim
    | join call => exact h.named key call hanswered
  | _ => trivial

theorem released_lead {g : RequestGroup} {key : String} {call : ℕ} {entry : CacheEntry}
    (h : (g.lead key).calls[call]? = some ⟨true,some entry,none⟩) :
    g.calls[call]? = some ⟨true,some entry,none⟩ := by
  simp only [RequestGroup.lead] at h
  rw [List.getElem?_append] at h
  split_ifs at h
  · exact h
  · have hmem := List.mem_of_getElem? h
    simp at hmem

theorem released_finish {g : RequestGroup} {call call' : ℕ} {entry : CacheEntry}
    {result : Option CacheEntry} {err : Option GoError}
    (h : (g.finish call result err).calls[call']? = some ⟨true,some entry,none⟩) :
    (call' = call ∧ result = some entry ∧ err = none) ∨
      g.calls[call']? = some ⟨true,some entry,none⟩ := by
  simp only [RequestGroup.finish,List.getElem?_modify] at h
  cases hold : g.calls[call']? with
  | none => simp [hold] at h
  | some old =>
    by_cases heq : call = call'
    · simp only [hold,heq,if_true,Option.map_eq_map,Option.map_some,Option.some.injEq,
        RequestCall.mk.injEq,true_and] at h
      exact .inl ⟨heq.symm,h⟩
    · simp only [hold,heq,if_false,Option.map_eq_map,Option.map_some] at h
      exact .inr h

-- what one step leaves: the threads have grown by its event
structure Grown (threads threads' : List Running) (ev : Event Ans) : Prop where
  grows : Grows threads threads'
  events : ∀ t ∈ threads', ∀ e ∈ t.trace, e = ev ∨ ∃ u ∈ threads, e ∈ u.trace

theorem Traced.retold (h : Traced lib cfg keys ⟨w,threads⟩) (hgrown : Grown threads threads' ev)
    (hkeys : ∀ call < w.group.calls.length, keys' call = keys call)
    (hn : w.group.calls.length ≤ n') (hnew : Told lib cfg keys' n' threads' ev) :
    ∀ t ∈ threads', ∀ e ∈ t.trace, Told lib cfg keys' n' threads' e := by
  intro t ht e he
  rcases hgrown.events t ht e he with rfl | ⟨u,hu,he⟩
  · exact hnew
  · exact (h.told u hu e he).mono hgrown.grows hkeys hn

theorem Traced.still_stored (h : Traced lib cfg keys ⟨w,threads⟩) (hgrows : Grows threads threads')
    (key : String) (entry : CacheEntry) (hfound : w.store key = some entry) :
    ∃ call, Cached lib cfg threads' key call entry :=
  (h.stored key entry hfound).imp fun _ hcached => hcached.grows hgrows

theorem Traced.still_released (h : Traced lib cfg keys ⟨w,threads⟩)
    (hgrows : Grows threads threads') (call : ℕ) (entry : CacheEntry)
    (hcall : w.group.calls[call]? = some ⟨true,some entry,none⟩) :
    Cached lib cfg threads' (keys call) call entry := (h.released call entry hcall).grows hgrows

theorem Traced.quiet (h : Traced lib cfg keys ⟨w,threads⟩) (hgrown : Grown threads threads' ev)
    (hanswered : Answered w ev) : Traced lib cfg keys ⟨w,threads'⟩ := by
  have hnew : Told lib cfg keys w.group.calls.length threads' ev :=
    (h.tells hanswered).mono hgrown.grows (fun _ _ => rfl) (le_refl _)
  exact ⟨h.named,h.retold hgrown (fun _ _ => rfl) (le_refl _) hnew,h.still_released hgrown.grows,
    h.still_stored hgrown.grows⟩

-- a new call is given the key it was entered for
theorem Traced.lead (h : Traced lib cfg keys ⟨w,threads⟩) {key : String}
    (hgrown : Grown threads threads' ⟨.enter key,.lead w.group.calls.length⟩) :
    Traced lib cfg (Function.update keys w.group.calls.length key)
      ⟨{ w with group := w.group.lead key },threads'⟩ := by
  have hkeys : ∀ call < w.group.calls.length,
      Function.update keys w.group.calls.length key call = keys call :=
    fun call hlt => Function.update_of_ne hlt.ne key keys
  have hlength : (w.group.lead key).calls.length = w.group.calls.length+1 := by
    simp [RequestGroup.lead]
  refine ⟨?_,?_,?_,h.still_stored hgrown.grows⟩
  · intro key' call hm
    simp only [RequestGroup.lead] at hm
    change _ ∧ call < (w.group.lead key).calls.length
    rw [hlength]
    split_ifs at hm with hkey
    · cases hm
      exact ⟨by rw [Function.update_self,hkey],Nat.lt_succ_self _⟩
    · obtain ⟨hold,hlt⟩ := h.named key' call hm
      exact ⟨(hkeys call hlt).trans hold,Nat.lt_succ_of_lt hlt⟩
  · change ∀ t ∈ threads', ∀ e ∈ t.trace, Told lib cfg _ (w.group.lead key).calls.length threads' e
    rw [hlength]
    exact h.retold hgrown hkeys (Nat.le_succ _) ⟨Function.update_self _ _ _,Nat.lt_succ_self _⟩
  · intro call entry hcall
    have hold := released_lead hcall
    rw [hkeys call (List.getElem?_eq_some_iff.mp hold).1]
    exact h.still_released hgrown.grows call entry hold

theorem Traced.put (h : Traced lib cfg keys ⟨w,threads⟩) {key : String} {entry : CacheEntry}
    {ttl : Duration} {stored : Bool} (hgrown : Grown threads threads' ⟨.set key entry ttl,stored⟩)
    (hset : ∃ call, Cached lib cfg threads key call entry) :
    Traced lib cfg keys ⟨w.put key entry,threads'⟩ := by
  refine ⟨h.named,h.retold hgrown (fun _ _ => rfl) (le_refl _) trivial,
    h.still_released hgrown.grows,?_⟩
  intro key' entry' hfound
  simp only [World.put] at hfound
  split_ifs at hfound with hkey
  · cases hfound
    rw [hkey]
    exact hset.imp fun _ hcached => hcached.grows hgrown.grows
  · exact h.still_stored hgrown.grows key' entry' hfound

theorem Traced.finish (h : Traced lib cfg keys ⟨w,threads⟩) {call : ℕ} {result : Option CacheEntry}
    {err : Option GoError} (hgrown : Grown threads threads' ⟨.finish call result err,()⟩)
    (hhanded : ∀ entry, result = some entry → err = none →
      Cached lib cfg threads (keys call) call entry) :
    Traced lib cfg keys ⟨{ w with group := w.group.finish call result err },threads'⟩ := by
  have hlength : (w.group.finish call result err).calls.length = w.group.calls.length := by
    simp [RequestGroup.finish]
  refine ⟨?_,?_,?_,h.still_stored hgrown.grows⟩
  · intro key' call' hm
    change _ ∧ call' < (w.group.finish call result err).calls.length
    rw [hlength]
    exact h.named key' call' hm
  · change ∀ t ∈ threads', ∀ e ∈ t.trace,
      Told lib cfg _ (w.group.finish call result err).calls.length threads' e
    rw [hlength]
    exact h.retold hgrown (fun _ _ => rfl) (le_refl _) trivial
  · intro call' entry hcall
    rcases released_finish hcall with ⟨rfl,hresult,herr⟩ | hold
    · exact (hhanded entry hresult herr).grows hgrown.grows
    · exact h.still_released hgrown.grows call' entry hold

theorem Traced.forget (h : Traced lib cfg keys ⟨w,threads⟩) {key : String}
    (hgrown : Grown threads threads' ⟨.forget key,()⟩) :
    Traced lib cfg keys ⟨{ w with group := w.group.forget key },threads'⟩ := by
  refine ⟨?_,h.retold hgrown (fun _ _ => rfl) (le_refl _) trivial,h.still_released hgrown.grows,
    h.still_stored hgrown.grows⟩
  intro key' call hm
  simp only [RequestGroup.forget] at hm
  split_ifs at hm
  exact h.named key' call hm

theorem grows_set {i : ℕ} {t t' : Running} (ht : threads[i]? = some t) (hcall : t'.call = t.call)
    (htrace : t.trace <:+ t'.trace) : Grows threads (threads.set i t') := by
  intro u hu
  obtain ⟨j,hj⟩ := List.mem_iff_getElem?.mp hu
  have hi := (List.getElem?_eq_some_iff.mp ht).1
  by_cases hij : i = j
  · subst hij
    rw [ht,Option.some.injEq] at hj
    subst hj
    exact ⟨t',List.mem_set hi t',hcall,htrace⟩
  · refine ⟨u,List.mem_iff_getElem?.mpr ⟨j,?_⟩,rfl,List.suffix_refl _⟩
    rw [List.getElem?_set_ne hij,hj]

theorem grown_exec {i : ℕ} {t : Running} (ht : threads[i]? = some t) (rest : Handling (Option GoError))
    (ev : Event Ans) :
    Grown threads (threads.set i { t with rest := rest, trace := ev :: t.trace }) ev := by
  refine ⟨grows_set ht rfl (List.suffix_cons _ _),Machine.forall_mem_set ?_ ?_⟩
  · exact fun u hu e he => .inr ⟨u,hu,he⟩
  · intro e he
    exact (List.mem_cons.mp he).imp_right fun hold => ⟨t,List.mem_of_getElem? ht,hold⟩

theorem Traced.exec {c : Site} (h : Traced lib cfg keys c) {i : ℕ} {t : Running} {op : Op} {x : Reply}
    {ans : Ans op} (ht : c.threads[i]? = some t) (rest : Handling (Option GoError))
    (hpre : (provenance lib cfg t.call).pre t.trace op)
    (hx : c.shared.exec op x = some (ans,w')) : ∃ keys', Traced lib cfg keys'
      ⟨w',c.threads.set i { t with rest := rest, trace := ⟨op,ans⟩ :: t.trace }⟩ := by
  have hgrown := grown_exec ht rest ⟨op,ans⟩
  have hmem := List.mem_of_getElem? ht
  generalize hev : (⟨op,ans⟩ : Event Ans) = ev at hgrown
  have heffect := effect_exec hx
  rw [hev] at heffect
  cases heffect with
  | quiet hanswered => exact ⟨keys,h.quiet hgrown hanswered⟩
  | lead key hnone => exact ⟨_,h.lead hgrown⟩
  | put key entry ttl stored =>
    cases hev
    obtain ⟨hkey,call,resp,fresh,stale,hstamped⟩ := hpre
    exact ⟨keys,h.put hgrown ⟨call,resp,fresh,stale,t,hmem,hkey,_,List.suffix_refl _,hstamped⟩⟩
  | finish call result err =>
    cases hev
    refine ⟨keys,h.finish hgrown ?_⟩
    rintro entry rfl rfl
    obtain ⟨key,ttl,tr,resp,fresh,stale,htr,hkey,hstamped⟩ := hpre
    have ⟨_,_,xCache,before,hshape⟩ := hstamped
    have hled := h.told t hmem ⟨.enter key,.lead call⟩ (by simp [htr,hshape])
    have hsuffix : tr <:+ t.trace := htr ▸ List.suffix_cons _ tr
    rw [hled.1]
    exact ⟨resp,fresh,stale,t,hmem,hkey,tr,hsuffix,hstamped⟩
  | forget key => exact ⟨keys,h.forget hgrown⟩

theorem Traced.spread {c : Site} (h : Traced lib cfg keys c) (hgrows : Grows c.threads threads')
    (hevents : ∀ t ∈ threads', ∀ e ∈ t.trace, ∃ u ∈ c.threads, e ∈ u.trace) :
    Traced lib cfg keys { c with threads := threads' } := by
  refine ⟨h.named,?_,h.still_released hgrows,h.still_stored hgrows⟩
  intro t ht e he
  obtain ⟨u,hu,he⟩ := hevents t ht e he
  exact (h.told u hu e he).mono hgrows (fun _ _ => rfl) (le_refl _)

theorem traced_step {c c' : Site} {a : Act}
    (h : Traced lib (normalizeConfig cfg) keys c)
    (hmeets : Machine.ThreadsMeet (provenance lib (normalizeConfig cfg)) (fun _ _ _ => True) c)
    (hs : (site lib cfg).step c a = some c') :
    ∃ keys', Traced lib (normalizeConfig cfg) keys' c' := by
  obtain ⟨r,rfl,rfl⟩ | ⟨i,x,t,op,k,ans,w,rfl,ht,halive,hrest,hx,rfl⟩ | ⟨i,t,rfl,ht,rfl⟩ |
    ⟨d,rfl,rfl⟩ := (site lib cfg).step_cases hs
  · refine ⟨keys,h.spread ?_ ?_⟩
    · exact fun t ht => ⟨t,List.mem_append_left _ ht,rfl,List.suffix_refl _⟩
    · intro t ht e he
      rcases List.mem_append.mp ht with ht | ht
      · exact ⟨t,ht,he⟩
      · rw [List.mem_singleton.mp ht] at he
        cases he
  · have hmeet := hmeets t (List.mem_of_getElem? ht)
    rw [hrest] at hmeet
    exact h.exec ht (k ans) hmeet.1 hx
  · refine ⟨keys,h.spread (grows_set ht rfl (List.suffix_refl _)) (Machine.forall_mem_set ?_ ?_)⟩
    · exact fun u hu e he => ⟨u,hu,he⟩
    · exact fun e he => ⟨t,List.mem_of_getElem? ht,he⟩
  · exact ⟨keys,h.named,h.told,h.released,h.stored⟩

end Steps

def requests (c : Site) : Requests := ⟨c.shared.group,c.threads⟩

theorem step_requests {lib : Library} {cfg : Config} {c c' : Site} {a : Act}
    (hs : (site lib cfg).step c a = some c') :
    ∃ b, (server lib cfg).step (requests c) b = some (requests c') := by
  obtain ⟨r,rfl,rfl⟩ | ⟨i,x,t,op,k,ans,w,rfl,ht,halive,hrest,hx,rfl⟩ | ⟨i,t,rfl,ht,rfl⟩ |
    ⟨d,rfl,rfl⟩ := (site lib cfg).step_cases hs
  · exact ⟨.start r,rfl⟩
  · obtain ⟨y,hy⟩ := group_exec hx
    exact ⟨.exec i y,(server lib cfg).step_exec (c := requests c) ht halive hrest hy⟩
  · refine ⟨.crash i,?_⟩
    simp only [Machine.step,requests,ht,Option.map_some]
  · exact ⟨.env (),rfl⟩

structure Sourced (lib : Library) (cfg : Config) (c : Site) : Prop where
  meets : Machine.ThreadsMeet (provenance lib (normalizeConfig cfg)) (fun _ _ _ => True) c
  asked : ∀ t ∈ c.threads, Prog.Disciplined (provenance lib (normalizeConfig cfg) t.call) t.trace
  disciplined : Disciplined (requests c)
  held : ∀ key call, c.threads.countP (holds key call) =
    if c.shared.group.m key = some call then 1 else 0
  traced : ∃ keys, Traced lib (normalizeConfig cfg) keys c

section Runs

variable {lib : Library} {cfg : Config} {c c' : Site} {acts : List Act} {clock : Time}

theorem sourced_opening (lib : Library) (cfg : Config) (clock : Time) :
    Sourced lib cfg (opening clock) := by
  refine ⟨?_,?_,?_,?_,fun _ => "",?_,?_,?_,?_⟩
  · simp [Machine.ThreadsMeet,opening]
  · simp [opening]
  · simp [Machine.ThreadsMeet,Disciplined,requests,opening]
  · simp [opening,World.start,newRequestGroup]
  · simp [opening,World.start,newRequestGroup]
  · simp [opening]
  · simp [opening,World.start,newRequestGroup]
  · simp [opening,World.start]

theorem sourced_step {a : Act} (h : Sourced lib cfg c) (hs : (site lib cfg).step c a = some c') :
    Sourced lib cfg c' := by
  obtain ⟨b,hb⟩ := step_requests hs
  obtain ⟨keys,htraced⟩ := h.traced
  refine ⟨?_,?_,disciplined_step h.disciplined hb,?_,traced_step htraced h.meets hs⟩
  · exact h.meets.step (m := site lib cfg) meets_program (fun _ _ _ _ _ _ _ => trivial) hs
  · exact (site lib cfg).disciplined_step h.meets h.asked hs
  · exact held_step h.disciplined h.held hb

theorem sourced_run (h : Sourced lib cfg c) (hrun : (site lib cfg).run acts c = some c') :
    Sourced lib cfg c' :=
  (site lib cfg).run_invariant (P := fun _ _ => True) (fun _ _ _ h _ hs => sourced_step h hs) h
    ((site lib cfg).along_true acts c) hrun

-- another request has entered the call for the key and has not left it
def heldByOther (c : Site) (i : ℕ) (key : String) (call : ℕ) : Prop :=
  ∃ j u, j ≠ i ∧ c.threads[j]? = some u ∧ holds key call u = true

theorem heldByOther_of_map (h : Sourced lib cfg c) {i : ℕ} {t : Running} {key : String} {call : ℕ}
    (ht : c.threads[i]? = some t) (hidle : stageOf t.trace = .idle)
    (hm : c.shared.group.m key = some call) : heldByOther c i key call := by
  have hcount := h.held key call
  rw [if_pos hm] at hcount
  obtain ⟨u,hu,hholds⟩ := List.countP_pos_iff.mp (hcount.symm ▸ Nat.one_pos)
  obtain ⟨j,hj⟩ := List.mem_iff_getElem?.mp hu
  refine ⟨j,u,?_,hj,hholds⟩
  rintro rfl
  rw [ht,Option.some.injEq] at hj
  subst hj
  simp [holds,hidle] at hholds

-- the age of what request i is served, by the way it came to it
inductive Timely (lib : Library) (cfg : Config) (acts : List Act) (clock : Time) (c : Site) (i : ℕ)
    (r : Request) (key : String) (call : ℕ) (entry : CacheEntry) (fresh stale : Time) :
    List (Event Ans) → Prop
  | fresh (h : Header) (now : Time) : now ≤ fresh+(normalizeConfig cfg).ttl →
      Timely lib cfg acts clock c i r key call entry fresh stale
        [⟨.header,h⟩,⟨.get key,some entry⟩,⟨.now,now⟩]
  | stale (h : Header) (now : Time) (other : ℕ)
      (check : (site lib cfg).Happened acts (opening clock) c i r
        [⟨.get key,some entry⟩,⟨.now,now⟩] ⟨.inFlight key,true⟩) :
      now < stale+(normalizeConfig cfg).ttl+(normalizeConfig cfg).staleWhileRevalidate →
      heldByOther check.source i key other →
      Timely lib cfg acts clock c i r key call entry fresh stale
        [⟨.header,h⟩,⟨.inFlight key,true⟩,⟨.get key,some entry⟩,⟨.now,now⟩]
  | shared (h : Header) (before : List (Event Ans))
      (joining : (site lib cfg).Happened acts (opening clock) c i r before
        ⟨.enter key,.join call⟩) :
      heldByOther joining.source i key call →
      Timely lib cfg acts clock c i r key call entry fresh stale
        (⟨.header,h⟩ :: ⟨.wait call,(some entry,none)⟩ :: ⟨.enter key,.join call⟩ :: before)

theorem ttl_nonneg (cfg : Config) : (0 : Int) ≤ (normalizeConfig cfg).ttl := by
  unfold normalizeConfig
  dsimp only
  split_ifs with h
  · decide
  · exact (not_le.mp h).le

theorem window_nonneg (cfg : Config) : (0 : Int) ≤ (normalizeConfig cfg).staleWhileRevalidate := by
  unfold normalizeConfig
  dsimp only
  split_ifs with h
  · decide
  · exact not_lt.mp h

-- the sum of the two durations may wrap, and then the entry is stale sooner
theorem bmod_le_self {d : Int} (h : 0 ≤ d) : d.bmod 18446744073709551616 ≤ d := by
  unfold Int.bmod
  dsimp only
  split_ifs <;> omega

theorem staleUntil_le (cfg : Config) (resp : Response) (fresh stale : Time) :
    (buildEntry lib (normalizeConfig cfg) resp fresh stale).staleUntil ≤
      stale+(normalizeConfig cfg).ttl+(normalizeConfig cfg).staleWhileRevalidate := by
  have hbmod := bmod_le_self (Int.add_nonneg (ttl_nonneg cfg) (window_nonneg cfg))
  change (stale+_ : Int) ≤ (stale+_+_ : Int)
  rw [Int.add_assoc]
  exact Int.add_le_add_left hbmod stale

-- the request's own step that made an event it was told of
theorem of_happened {i : ℕ} {t : Running} {later before : List (Event Ans)} {ev : Event Ans}
    (hrun : (site lib cfg).run acts (opening clock) = some c) (ht : c.threads[i]? = some t)
    (htrace : t.trace = later ++ ev :: before) :
    ∃ H : (site lib cfg).Happened acts (opening clock) c i t.call before ev,
      Sourced lib cfg H.source ∧ Effect H.source.shared ev H.target.shared := by
  obtain ⟨H⟩ := (site lib cfg).run_event rfl hrun ht later htrace
  exact ⟨H,sourced_run (sourced_opening lib cfg clock) H.reached,effect_exec H.effect⟩

theorem cached_response_timely (lib : Library) (cfg : Config) (clock : Time) (acts : List Act) (c : Site)
    (hrun : (site lib cfg).run acts (opening clock) = some c) (i : ℕ) (t : Running)
    (ht : c.threads[i]? = some t) (status : Int) (header : Header) (body : Option String)
    (ans : Option GoError) (later before : List (Event Ans))
    (htrace : t.trace = later ++ ⟨.respond status header body,ans⟩ :: before) :
    ∃ key call entry resp fresh stale, buildCacheKey lib t.call (normalizeConfig cfg) = .ok key ∧
      Made lib (normalizeConfig cfg) c.threads key call entry resp fresh stale ∧
      Shows entry status body ∧
      Timely lib cfg acts clock c i t.call key call entry fresh stale before := by
  have hsourced := sourced_run (sourced_opening lib cfg clock) hrun
  have hmem := List.mem_of_getElem? ht
  have hasked := hsourced.asked t hmem
  rw [htrace] at hasked
  obtain ⟨key,entry,hkey,hshows,hpath⟩ := hasked.at later
  obtain ⟨keys,htraced⟩ := hsourced.traced
  have htold := htraced.told t hmem
  rw [htrace] at htold
  cases hpath with
  | fresh h now hfresh =>
    obtain ⟨call,resp,fresh,stale,hmade⟩ := htold ⟨.get key,some entry⟩ (by simp)
    obtain ⟨_,_,_,_,_,_,hentry,_⟩ := id hmade
    rw [hentry] at hfresh
    exact ⟨key,call,entry,resp,fresh,stale,hkey,hmade,hshows,.fresh h now hfresh⟩
  | stale h now hstale =>
    obtain ⟨call,resp,fresh,stale,hmade⟩ := htold ⟨.get key,some entry⟩ (by simp)
    obtain ⟨_,_,_,_,_,_,hentry,_⟩ := id hmade
    rw [hentry] at hstale
    have hage := lt_of_lt_of_le hstale (staleUntil_le cfg resp fresh stale)
    have hsplit : t.trace = (later ++ [⟨.respond status header body,ans⟩,⟨.header,h⟩]) ++
        ⟨.inFlight key,true⟩ :: [⟨.get key,some entry⟩,⟨.now,now⟩] := by simp [htrace]
    obtain ⟨H,hsource,heffect⟩ := of_happened hrun ht hsplit
    obtain ⟨other,hother⟩ := heffect.checked
    have hidle : stageOf H.thread.trace = .idle := by rw [H.trace]; rfl
    exact ⟨key,call,entry,resp,fresh,stale,hkey,hmade,hshows,
      .stale h now other H hage (heldByOther_of_map hsource H.there hidle hother)⟩
  | shared h call tr hidle =>
    obtain ⟨_,hcached⟩ := htold ⟨.wait call,(some entry,none)⟩ (by simp)
    obtain ⟨hname,_⟩ := htold ⟨.enter key,.join call⟩ (by simp)
    rw [hname] at hcached
    obtain ⟨resp,fresh,stale,hmade⟩ := hcached
    have hsplit : t.trace = (later ++ [⟨.respond status header body,ans⟩,⟨.header,h⟩,
        ⟨.wait call,(some entry,none)⟩]) ++ ⟨.enter key,.join call⟩ :: tr := by simp [htrace]
    obtain ⟨H,hsource,heffect⟩ := of_happened hrun ht hsplit
    rw [← H.trace] at hidle
    exact ⟨key,call,entry,resp,fresh,stale,hkey,hmade,hshows,
      .shared h tr H (heldByOther_of_map hsource H.there hidle heffect.joined)⟩

end Runs

section Examples

-- a run of the handler for the key ended with status 200 when the clock read so much
def EndedSince (lib : Library) (cfg : Config) (acts : List Act) (c : Site) (key : String)
    (since : Time) : Prop :=
  ∃ j r before xCache resp, ∃ H : (site lib cfg).Happened acts (opening 0) c j r before
      ⟨.next xCache,.returned resp⟩,
    buildCacheKey lib r (normalizeConfig cfg) = .ok key ∧ resp.status = 200 ∧
      since ≤ H.source.shared.clock

def shown (t : Running) : Option (Int × Option String) :=
  match t.trace with
  | ⟨.respond status _ body,_⟩ :: _ => some (status,body)
  | _ => none

def readings (t : Running) : List Time :=
  t.trace.filterMap fun
    | ⟨.now,now⟩ => some now
    | _ => none

-- what a request was shown, what it had asked for before, and what it had read off the clock
structure View where
  shown : Option (Int × Option String)
  path : List Op
  read : List Time
  deriving DecidableEq, Repr

def view (t : Running) : View := ⟨shown t,t.trace.tail.map Event.op,readings t⟩

theorem respond_of_shown {t : Running} {status : Int} {body : Option String}
    (h : shown t = some (status,body)) :
    ∃ header ans before, t.trace = ⟨.respond status header body,ans⟩ :: before := by
  unfold shown at h
  split at h
  · rename_i header _ ans before htrace
    cases h
    exact ⟨header,ans,before,htrace⟩
  · cases h

def reportKey : String := "http-cache:GET:/report:"

-- the handler ends at second 0, its leader stamps the entry at second 50 and stores it after second 100,
-- when the second request has joined and the third has read the clock
def slowLeader : List Act :=
  [.start report,.exec 0 .go,.exec 0 (.failed (.text "cache miss")),.exec 0 .go,
    .exec 0 (.handled (.returned ⟨200,[],"report"⟩)),.env 50000000000,.exec 0 .go,.exec 0 .go,
    .start report,.start report,.env 25000000000,.exec 2 .go,.env 25000000000,
    .exec 1 .go,.exec 1 .go,.exec 1 .go,.exec 0 .go,.exec 0 .go,.exec 0 .go,
    .exec 1 .go,.exec 1 (.headers []),.exec 1 .go,.exec 2 .go,.exec 2 (.headers []),.exec 2 .go]

theorem slowLeader_run :
    ((site asciiLibrary cached).run slowLeader (opening 0)).map (fun c => c.threads.tail.map view) =
    some [⟨some (200,some "report"),[.header,.wait 0,.enter reportKey,.get reportKey,.now],[100*second]⟩,
      ⟨some (200,some "report"),[.header,.get reportKey,.now],[75*second]⟩] := by
  decide +kernel

def handlerEndsAtZero (c : Site) : Act → Bool
  | .exec _ (.handled _) => c.shared.clock = 0
  | _ => true

theorem clock_of_ended {acts : List Act} {c : Site} {key : String} {since : Time}
    (hzero : (site asciiLibrary cached).Along (fun c a => handlerEndsAtZero c a = true) acts (opening 0))
    (h : EndedSince asciiLibrary cached acts c key since) : since ≤ 0 := by
  obtain ⟨j,r,before,xCache,resp,H,_,_,hsince⟩ := h
  rw [H.split] at hzero
  have hat := (site asciiLibrary cached).along_at hzero H.reached
  have heffect := H.effect
  generalize H.choice = x at hat heffect
  have hclock : H.source.shared.clock = 0 := by
    cases x with
    | handled o => simpa [handlerEndsAtZero] using hat
    | _ => cases heffect
  exact hclock ▸ hsince

-- both are shown a run of the handler that ended longer ago than the bound, by either clock reading
theorem slow_leader_shows_old : ∃ c, (site asciiLibrary cached).run slowLeader (opening 0) = some c ∧
    c.threads.tail.map view =
      [⟨some (200,some "report"),[.header,.wait 0,.enter reportKey,.get reportKey,.now],[100*second]⟩,
        ⟨some (200,some "report"),[.header,.get reportKey,.now],[75*second]⟩] ∧
    ∀ now ∈ [100*second,75*second], ¬ EndedSince asciiLibrary cached slowLeader c reportKey
      (now-((normalizeConfig cached).ttl+(normalizeConfig cached).staleWhileRevalidate)) := by
  obtain ⟨c,hrun,hviews⟩ := Option.map_eq_some_iff.mp slowLeader_run
  refine ⟨c,hrun,hviews,?_⟩
  have hzero : (site asciiLibrary cached).Along (fun c a => handlerEndsAtZero c a = true) slowLeader
      (opening 0) := by decide +kernel
  have hlate : ∀ now ∈ [100*second,75*second],
      ¬ now-((normalizeConfig cached).ttl+(normalizeConfig cached).staleWhileRevalidate) ≤ 0 := by
    decide +kernel
  exact fun now hnow hended => hlate now hnow (clock_of_ended hzero hended)

theorem joined_report_timely : ∃ (c : Site) (t : Running) (header : Header) (ans : Option GoError)
    (before : List (Event Ans)) (key : String) (call : ℕ) (entry : CacheEntry) (resp : Response)
    (fresh stale : Time), (site asciiLibrary cached).run slowLeader (opening 0) = some c ∧
    c.threads[1]? = some t ∧
    t.trace = ⟨.respond 200 header (some "report"),ans⟩ :: before ∧
    buildCacheKey asciiLibrary t.call (normalizeConfig cached) = .ok key ∧
    Made asciiLibrary (normalizeConfig cached) c.threads key call entry resp fresh stale ∧
    Shows entry 200 (some "report") ∧
    Timely asciiLibrary cached slowLeader 0 c 1 t.call key call entry fresh stale before := by
  obtain ⟨c,hrun,hviews⟩ := Option.map_eq_some_iff.mp slowLeader_run
  have hsecond := congrArg (fun views => views[0]?) hviews
  simp only [List.getElem?_map,List.getElem?_tail,List.getElem?_cons_zero,
    Option.map_eq_some_iff] at hsecond
  obtain ⟨t,ht,hview⟩ := hsecond
  obtain ⟨header,ans,before,htrace⟩ := respond_of_shown (congrArg View.shown hview)
  obtain ⟨key,call,entry,resp,fresh,stale,h⟩ := cached_response_timely asciiLibrary cached 0 slowLeader c
    hrun 1 t ht 200 header (some "report") ans [] before htrace
  exact ⟨c,t,header,ans,before,key,call,entry,resp,fresh,stale,hrun,ht,htrace,h⟩

end Examples

end Nimburion.HTTP.Cache.Freshness
