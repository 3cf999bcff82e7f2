import Nimburion.HTTP.CacheEntry
import Nimburion.Lib.Interaction

namespace Nimburion.HTTP.Cache
open Interaction GoTime GoText

structure RequestCall where
  released : Bool
  entry : Option CacheEntry
  err : Option GoError
  deriving DecidableEq, Repr

-- a pointer to a call is its place among the calls made so far
structure RequestGroup where
  m : String → Option ℕ
  calls : List RequestCall

def newRequestGroup : RequestGroup := ⟨fun _ => none,[]⟩

inductive Entered where
  | lead (call : ℕ)
  | join (call : ℕ)
  deriving DecidableEq, Repr

inductive Outcome where
  | returned (resp : Response)
  | failed (e : GoError)
  | panicked
  deriving DecidableEq, Repr

inductive Panic where
  | handler
  deriving DecidableEq, Repr

-- one operation per mutex section, call of the store and call of the handler
inductive Op where
  | now
  | get (key : String)
  | inFlight (key : String)
  | enter (key : String)
  | wait (call : ℕ)
  | next (xCache : Option String)
  | set (key : String) (entry : CacheEntry) (ttl : Duration)
  | finish (call : ℕ) (entry : Option CacheEntry) (err : Option GoError)
  | forget (key : String)
  | header
  | respond (status : Int) (h : Header) (body : Option String)
  deriving DecidableEq, Repr

abbrev Ans : Op → Type
  | .now => Time
  | .get _ => Option CacheEntry
  | .inFlight _ => Bool
  | .enter _ => Entered
  | .wait _ => Option CacheEntry × Option GoError
  | .next _ => Outcome
  | .set .. => Bool
  | .finish .. => Unit
  | .forget _ => Unit
  | .header => Header
  | .respond .. => Option GoError

abbrev Handling := Interaction.Prog Op Ans Panic

section Handle

variable (lib : Library) (cfg : Config)

def next (xCache : Option String) : Handling (Except GoError Response) := do
  match ← Prog.perform (Op.next xCache) with
  | .returned resp => pure (.ok resp)
  | .failed e => pure (.error e)
  | .panicked => Prog.fail .handler

def pass (xCache : Option String) : Handling (Option GoError) := do
  match ← next xCache with
  | .ok _ => pure none
  | .error e => pure (some e)

inductive EntryState where
  | fresh (entry : CacheEntry)
  | stale (entry : CacheEntry)
  | missing

def load (key : String) (now : Time) : Handling EntryState := do
  match ← Prog.perform (Op.get key) with
  | none => pure .missing
  | some entry =>
      if now ≤ entry.freshUntil then pure (.fresh entry)
      else if 0 < cfg.staleWhileRevalidate ∧ now < entry.staleUntil then pure (.stale entry)
      else pure .missing

def serveCached (r : Request) (entry : CacheEntry) (state : String) :
    Handling (Option GoError) := do
  let h ← Prog.perform Op.header
  if ifNoneMatchSatisfied r entry.etag then
    let _ ← Prog.perform (Op.respond 304 (servedHeader lib cfg h entry state) none)
    pure none
  else if lib.toLower r.method = "head" then
    let _ ← Prog.perform (Op.respond entry.statusCode (servedHeader lib cfg h entry state) none)
    pure none
  else Prog.perform (Op.respond entry.statusCode (servedHeader lib cfg h entry state) (some entry.body))

def computeAndStore (key : String) : Handling (Option CacheEntry × Option GoError) := do
  match ← next (some "MISS") with
  | .error e => pure (none,some e)
  | .ok resp =>
      if resp.status ≠ 200 then pure (none,none)
      else
        let fresh ← Prog.perform Op.now
        let stale ← Prog.perform Op.now
        let stored ← Prog.perform (Op.set key (buildEntry lib cfg resp fresh stale) (storeTTL cfg))
        if stored then pure (some (buildEntry lib cfg resp fresh stale),none) else pure (none,none)

-- requestGroup.Do: the third result says whether the call was shared
def Do (key : String) (fn : Handling (Option CacheEntry × Option GoError)) :
    Handling (Option CacheEntry × Option GoError × Bool) := do
  match ← Prog.perform (Op.enter key) with
  | .join call =>
      let (entry,err) ← Prog.perform (Op.wait call)
      pure (entry,err,true)
  | .lead call =>
      let (entry,err) ← fn
      let _ ← Prog.perform (Op.finish call entry err)
      let _ ← Prog.perform (Op.forget key)
      pure (entry,err,false)

def compute (r : Request) (key : String) : Handling (Option GoError) := do
  match ← Do key (computeAndStore lib cfg key) with
  | (some entry,none,true) => serveCached lib cfg r entry "HIT"
  | (_,_,true) => pass (some "MISS")
  | (_,err,false) => pure err

def lookup (r : Request) (key : String) : Handling (Option GoError) := do
  let now ← Prog.perform Op.now
  match ← load cfg key now with
  | .fresh entry => serveCached lib cfg r entry "HIT"
  | .stale entry =>
      -- a stale entry was loaded, so the window is positive
      if ← Prog.perform (Op.inFlight key) then serveCached lib cfg r entry "STALE"
      else compute lib cfg r key
  | .missing => compute lib cfg r key

def handle (r : Request) : Handling (Option GoError) :=
  let method := lib.toUpper (trimSpace r.method)
  if !cfg.enabled || !cfg.hasStore then pass none
  else if method ≠ "GET" ∧ method ≠ "HEAD" then pass none
  else if shouldBypass lib r cfg then pass (some "BYPASS")
  else match buildCacheKey lib r cfg with
    | .error _ => pass (some "MISS")
    | .ok key => lookup lib cfg r key

def middleware (r : Request) : Handling (Option GoError) :=
  match validateConfig (normalizeConfig cfg) with
  | some _ => pass none
  | none => handle lib (normalizeConfig cfg) r

-- a recovered panic is answered, and the chain sees no error
def recovery (handler : Handling (Option GoError)) : Handling (Option GoError) := do
  match ← handler.attempt with
  | .ok err => pure err
  | .error (.handler) => pure none

end Handle

namespace RequestGroup

def isReleased (g : RequestGroup) (call : ℕ) : Bool := g.calls[call]?.any RequestCall.released

def lead (g : RequestGroup) (key : String) : RequestGroup :=
  ⟨fun k => if k = key then some g.calls.length else g.m k,g.calls ++ [⟨false,none,none⟩]⟩

def finish (g : RequestGroup) (call : ℕ) (entry : Option CacheEntry) (err : Option GoError) :
    RequestGroup :=
  { g with calls := g.calls.modify call fun _ => ⟨true,entry,err⟩ }

def forget (g : RequestGroup) (key : String) : RequestGroup :=
  { g with m := fun k => if k = key then none else g.m k }

end RequestGroup

-- what the clock, the store, the handler and the response answer
inductive Choice where
  | go
  | time (t : Time)
  | loaded (entry : CacheEntry)
  | failed (e : GoError)
  | handled (o : Outcome)
  | headers (h : Header)
  deriving DecidableEq, Repr

def exec (g : RequestGroup) : (op : Op) → Choice → Option (Ans op × RequestGroup)
  | .now, .time t => some (t,g)
  | .get _, .loaded entry => some (some entry,g)
  | .get _, .failed _ => some (none,g)
  | .inFlight key, .go => some ((g.m key).isSome,g)
  | .enter key, .go => match g.m key with
      | some call => some (.join call,g)
      | none => some (.lead g.calls.length,g.lead key)
  | .wait call, .go => match g.calls[call]? with
      | some ⟨true,entry,err⟩ => some ((entry,err),g)
      | _ => none
  | .next _, .handled o => some (o,g)
  | .set .., .go => some (true,g)
  | .set .., .failed _ => some (false,g)
  | .finish call entry err, .go => some ((),g.finish call entry err)
  | .forget key, .go => some ((),g.forget key)
  | .header, .headers h => some (h,g)
  | .respond .., .go => some (none,g)
  | .respond .., .failed e => some (some e,g)
  | _, _ => none

abbrev Requests := Interaction.Config Ans Panic RequestGroup Request (Option GoError)

abbrev Running := Thread Ans Panic Request (Option GoError)

abbrev Step := Action Request Choice Unit

def server (lib : Library) (cfg : Config) :
    Machine Ans Panic RequestGroup Request (Option GoError) Choice Unit where
  program r := recovery (middleware lib cfg r)
  exec := exec
  env g _ := g

-- where a request stands in requestGroup.Do
inductive Stage where
  | idle
  | leading (key : String) (call : ℕ)
  | released (key : String) (call : ℕ)
  | left (key : String) (call : ℕ)
  deriving DecidableEq, Repr

def Stage.after (stage : Stage) (ev : Event Ans) : Stage :=
  match ev, stage with
  | ⟨.enter key,.lead call⟩, _ => .leading key call
  | ⟨.finish ..,_⟩, .leading key call => .released key call
  | ⟨.forget _,_⟩, .released key call => .left key call
  | _, stage => stage

def stageOf : List (Event Ans) → Stage
  | [] => .idle
  | ev :: tr => (stageOf tr).after ev

def Stage.leads : Stage → Option (String × ℕ)
  | .idle => none
  | .leading key call | .released key call | .left key call => some (key,call)

def leads (t : Running) : Option (String × ℕ) := (stageOf t.trace).leads

def ended (t : Running) : Bool :=
  match t.rest with
  | .call _ _ => false
  | _ => true

def waitsFor (t : Running) : Option ℕ :=
  match t.rest with
  | .call (.wait call) _ => some call
  | _ => none

-- a leader that is done has left its key and released its call, and who waits for a call that is not
-- released waits for a leader that goes on
def unwedged (c : Requests) : Bool :=
  c.threads.all fun t =>
    (!ended t || (leads t).all fun p => c.shared.m p.1 ≠ some p.2 && c.shared.isReleased p.2) &&
    (waitsFor t).all fun call => c.shared.isReleased call || c.threads.any fun u =>
      (leads u).any (fun p => p.2 = call) && !ended u && (waitsFor u).isNone

def unwedgedAfter (lib : Library) (cfg : Config) (c : Requests) (a : Step) : Bool :=
  match (server lib cfg).step c a with
  | none => true
  | some c' => unwedged c'

def leaderReturns (c : Requests) (a : Step) : Bool :=
  match c.next a with
  | some (t,.next _,.handled .panicked) => (leads t).isNone
  | _ => true

end Nimburion.HTTP.Cache
