import Nimburion.HTTP.SSE

namespace Nimburion.HTTP.SSE
open Interaction GoTime GoText

-- Client.close runs under a sync.Once: `closing` says that Client.closed is closed, and until
-- `eventsClosed` a second caller waits
structure Conn where
  client : Client
  events : List Evt
  closing : Bool
  eventsClosed : Bool
  deriving DecidableEq, Repr

structure Sub where
  channel : String
  ctx : ℕ
  opened : Bool
  deriving DecidableEq, Repr

structure Hub where
  conns : List Conn
  connections : Map ℕ
  byChannel : Map (Map ℕ)
  subs : List Sub
  busSubscribers : Map ℕ
  done : List ℕ
  replay : String → List Evt
  locked : Bool

def newManager : Hub := ⟨[],∅,∅,[],∅,[],fun _ => [],false⟩

namespace Hub

def values {β : Type} (m : Map β) : List β := m.entries.map Sigma.snd

def channelClients (s : Hub) (channel : String) : Map ℕ := (s.byChannel.lookup channel).getD ∅

def clientAt (s : Hub) (ref : ℕ) : Option Client := s.conns[ref]?.map Conn.client

def setConn (s : Hub) (ref : ℕ) (f : Conn → Conn) : Hub := { s with conns := s.conns.modify ref f }

def closeSub (s : Hub) (sub : ℕ) : Hub :=
  { s with subs := s.subs.modify sub fun x => { x with opened := false } }

-- RedisBus.Subscribe forwards until the subscriber's context is done or the handle is closed
def forwards (s : Hub) (sub : ℕ) : Bool :=
  s.subs[sub]?.any fun x => x.opened && x.ctx ∉ s.done

def index (s : Hub) (c : Client) (ref : ℕ) : Hub :=
  { s with
    connections := s.connections.insert c.id ref
    byChannel := s.byChannel.insert c.channel ((s.channelClients c.channel).insert c.id ref) }

def register (cfg : ManagerConfig) (s : Hub) (c : Client) : Except GoError (ℕ × Bool) × Hub :=
  if 0 < cfg.maxConnections ∧ cfg.maxConnections ≤ s.connections.entries.length then
    (.error errTooManyConnections,s)
  else
    (.ok (s.conns.length,cfg.hasBus && (s.busSubscribers.lookup c.channel).isNone),
      { s.index c s.conns.length with conns := s.conns ++ [⟨c,[],false,false⟩] })

def unindex (s : Hub) (clientID channel : String) : Hub :=
  { s with
    connections := s.connections.erase clientID
    byChannel :=
      if ((s.channelClients channel).erase clientID).entries = [] then s.byChannel.erase channel
      else s.byChannel.insert channel ((s.channelClients channel).erase clientID) }

-- the first Close of a subscription can fail, but it stops forwarding all the same
def failedClose (s : Hub) (sub : ℕ) (err : Option GoError) : Option GoError :=
  err.filter fun _ => s.subs[sub]?.any Sub.opened

def dropSub (s : Hub) (channel : String) (err : Option GoError) : Option GoError × Hub :=
  match s.busSubscribers.lookup channel with
  | none => (none,s)
  | some sub => match s.failedClose sub err with
      | some e => (some e,s.closeSub sub)
      | none => (none,{ s.closeSub sub with busSubscribers := s.busSubscribers.erase channel })

def remove (s : Hub) (clientID : String) (err : Option GoError) :
    Option (ℕ × Option GoError) × Hub :=
  match s.connections.lookup clientID with
  | none => (none,s)
  | some ref => match s.conns[ref]? with
      | none => (none,s)
      | some conn =>
          if ((s.channelClients conn.client.channel).erase clientID).entries = [] then
            (some (ref,((s.unindex clientID conn.client.channel).dropSub conn.client.channel err).1),
              ((s.unindex clientID conn.client.channel).dropSub conn.client.channel err).2)
          else (some (ref,none),s.unindex clientID conn.client.channel)

def recordSub (s : Hub) (channel : String) (sub : ℕ) (err : Option GoError) :
    Except GoError Unit × Hub :=
  match s.busSubscribers.lookup channel with
  | none => (.ok (),{ s with busSubscribers := s.busSubscribers.insert channel sub })
  | some _ => match s.failedClose sub err with
      | some e => (.error e,s.closeSub sub)
      | none => (.ok (),s.closeSub sub)

def getSince (s : Hub) (channel lastEventID : String) (limit : Int) : List Evt :=
  let newer := (s.replay channel).filter fun e => lastEventID = "" || lastEventID < e.id
  if limit ≤ 0 then newer else newer.drop (newer.length-limit.toNat)

def append (cfg : ManagerConfig) (s : Hub) (event : Evt) : Hub :=
  let events := s.replay event.channel ++ [event]
  { s with replay := fun channel =>
      if channel = event.channel then events.drop (events.length-cfg.replayLimit.toNat)
      else s.replay channel }

def send (cfg : ManagerConfig) (s : Hub) (ref : ℕ) (event : Evt) : SendResult × Hub :=
  match s.conns[ref]? with
  | none => (.full,s)
  | some conn =>
      if conn.eventsClosed then (.panicked,s)
      else if conn.events.length < cfg.clientBuffer.toNat then
        (.sent,s.setConn ref fun x => { x with events := x.events ++ [event] })
      else (.full,s)

-- a receive from the client's channel, the request's context, the client's end or the ticker
def await (s : Hub) (ref ctx : ℕ) (last : Bool) (wake : Wake) : Option Hub :=
  match wake with
  | .done => if ctx ∈ s.done ∨ s.conns[ref]?.any Conn.closing then some s else none
  | .heartbeat _ => if last then none else some s
  | .event e =>
      if last = false ∧ s.conns[ref]?.any (fun conn => conn.events.head? = some e) then
        some (s.setConn ref fun x => { x with events := x.events.tail })
      else none

def takeAll (s : Hub) : Hub :=
  { (values s.busSubscribers).foldl closeSub s with
    connections := ∅, byChannel := ∅, busSubscribers := ∅, locked := true }

end Hub

-- how an operation ends: a call to the bus, the store or the response may fail, a map is ranged
-- over in any order
inductive Choice where
  | ok
  | fail (e : GoError)
  | stamp (id : String) (now : Time)
  | order (refs : List ℕ)
  | wake (w : Wake)
  deriving DecidableEq, Repr

def Choice.err : Choice → Option GoError
  | .fail e => some e
  | _ => none

def exec (cfg : ManagerConfig) (s : Hub) (op : Op) (x : Choice) : Option (Ans op × Hub) :=
  match op with
  | .nextEventID => match x with
      | .stamp id now => some ((id,now),s)
      | _ => none
  | .register c => if s.locked then none else some (s.register cfg c)
  | .lookupSub channel =>
      if s.locked then none else some ((s.busSubscribers.lookup channel).isSome,s)
  | .busSubscribe ctx channel => match x with
      | .fail e => some (.error e,s)
      | _ => if ctx ∈ s.done then none
          else some (.ok s.subs.length,{ s with subs := s.subs ++ [⟨channel,ctx,true⟩] })
  | .recordSub channel sub => if s.locked then none else some (s.recordSub channel sub x.err)
  | .getSince channel lastEventID limit => match x with
      | .fail e => some (.error e,s)
      | _ => some (.ok (s.getSince channel lastEventID limit),s)
  | .remove clientID => if s.locked then none else some (s.remove clientID x.err)
  | .beginClose ref => match s.conns[ref]? with
      | none => none
      | some conn =>
          if conn.closing = false then
            some (true,s.setConn ref fun conn => { conn with closing := true })
          else if conn.eventsClosed then some (false,s)
          else none
  | .closeEvents ref => some ((),s.setConn ref fun conn => { conn with eventsClosed := true })
  | .append event => match x with
      | .fail e => some (.error e,s)
      | _ => some (.ok (),s.append cfg event)
  | .busPublish _ => match x with
      | .fail e => some (.error e,s)
      | _ => some (.ok (),s)
  | .snapshot channel => match x with
      | .order refs =>
          if s.locked = false ∧ refs.Perm (Hub.values (s.channelClients channel)) then
            some (refs.filterMap fun ref => s.conns[ref]?.map fun conn => (ref,conn.client),s)
          else none
      | _ => none
  | .checkClosed ref => some (s.conns[ref]?.any Conn.closing,s)
  | .send ref event => some (s.send cfg ref event)
  | .await ref ctx last => match x with
      | .wake w => (s.await ref ctx last w).map fun s' => (w,s')
      | _ => none
  | .writeEvent _ _ => some (x.err.isNone,s)
  | .takeAll => match x with
      | .order refs =>
          if s.locked = false ∧ refs.Perm (Hub.values s.connections) then some (refs,s.takeAll)
          else none
      | _ => none
  | .unlock => some ((),{ s with locked := false })
  | .endRequest ctx => some ((),{ s with done := ctx :: s.done })

-- `forward` is an event the bus hands to the manager
inductive Call where
  | stream (ctx : ℕ) (req : SubscriptionRequest) (rounds : ℕ)
  | publish (req : PublishRequest)
  | forward (event : Evt)
  | disconnect (clientID : String)
  | close
  deriving DecidableEq, Repr

def program (cfg : ManagerConfig) : Call → M (Option GoError)
  | .stream ctx req rounds => stream cfg ctx req rounds
  | .publish req => publish cfg req
  | .forward event => do
      deliver cfg event
      pure none
  | .disconnect clientID => disconnect clientID
  | .close => close

-- the environment ends a request's context
def manager (cfg : ManagerConfig) : Machine Ans GoError Hub Call (Option GoError) Choice ℕ where
  program := program (normalizeManagerConfig cfg)
  exec := exec (normalizeManagerConfig cfg)
  env := fun s ctx => { s with done := ctx :: s.done }

abbrev Calls := Config Ans GoError Hub Call (Option GoError)

abbrev Running := Thread Ans GoError Call (Option GoError)

abbrev Step := Action Call Choice ℕ

abbrev Trace := List (Event Ans)

def movesConns : Event Ans → Bool
  | ⟨.register _,.ok _⟩ => true
  | ⟨.beginClose _,true⟩ => true
  | ⟨.closeEvents _,_⟩ => true
  | ⟨.send .., .sent⟩ => true
  | ⟨.await .., .event _⟩ => true
  | _ => false

-- what an operation can do to the clients made so far
inductive Moves (s : Hub) : Event Ans → List Conn → Prop
  | still (ev : Event Ans) : movesConns ev = false → Moves s ev s.conns
  | register (c : Client) (needSub : Bool) :
      Moves s ⟨.register c,.ok (s.conns.length,needSub)⟩ (s.conns ++ [⟨c,[],false,false⟩])
  | beginClose (ref : ℕ) (conn : Conn) : s.conns[ref]? = some conn → conn.closing = false →
      Moves s ⟨.beginClose ref,true⟩
        (s.conns.modify ref fun conn => { conn with closing := true })
  | closeEvents (ref : ℕ) : Moves s ⟨.closeEvents ref,()⟩
      (s.conns.modify ref fun conn => { conn with eventsClosed := true })
  | send (ref : ℕ) (event : Evt) (conn : Conn) : s.conns[ref]? = some conn →
      conn.eventsClosed = false → Moves s ⟨.send ref event,.sent⟩
        (s.conns.modify ref fun conn => { conn with events := conn.events ++ [event] })
  | receive (ref ctx : ℕ) (last : Bool) (event : Evt) (conn : Conn) :
      s.conns[ref]? = some conn → conn.events.head? = some event →
      Moves s ⟨.await ref ctx last,.event event⟩
        (s.conns.modify ref fun conn => { conn with events := conn.events.tail })

def Hub.refuses (cfg : ManagerConfig) (s : Hub) : Bool :=
  0 < cfg.maxConnections ∧ cfg.maxConnections ≤ s.connections.entries.length

abbrev Hub.joined (s : Hub) (c : Client) : Hub :=
  { s.index c s.conns.length with conns := s.conns ++ [⟨c,[],false,false⟩] }

def movesBus : Event Ans → Bool
  | ⟨.register _,.ok _⟩ => true
  | ⟨.lookupSub _,_⟩ => true
  | ⟨.busSubscribe ..,.ok _⟩ => true
  | ⟨.recordSub ..,_⟩ => true
  | ⟨.remove _,_⟩ => true
  | ⟨.takeAll,_⟩ => true
  | ⟨.endRequest _,_⟩ => true
  | _ => false

-- everything an operation can do; what a Close of the bus answers is in the choice
inductive Effect (cfg : ManagerConfig) (s : Hub) (x : Choice) : Event Ans → Hub → Prop
  | clients (ev : Event Ans) (conns : List Conn) : movesBus ev = false → Moves s ev conns →
      Effect cfg s x ev { s with conns := conns }
  | append (event : Evt) : Effect cfg s x ⟨.append event,.ok ()⟩ (s.append cfg event)
  | unlock : Effect cfg s x ⟨.unlock,()⟩ { s with locked := false }
  | lookup (channel : String) :
      Effect cfg s x ⟨.lookupSub channel,(s.busSubscribers.lookup channel).isSome⟩ s
  | register (c : Client) : s.refuses cfg = false →
      Effect cfg s x ⟨.register c,.ok (s.conns.length,
          cfg.hasBus && (s.busSubscribers.lookup c.channel).isNone)⟩ (s.joined c)
  | subscribe (ctx : ℕ) (channel : String) : ctx ∉ s.done →
      Effect cfg s x ⟨.busSubscribe ctx channel,.ok s.subs.length⟩
        { s with subs := s.subs ++ [⟨channel,ctx,true⟩] }
  | record (channel : String) (sub : ℕ) :
      Effect cfg s x ⟨.recordSub channel sub,(s.recordSub channel sub x.err).1⟩
        (s.recordSub channel sub x.err).2
  | remove (clientID : String) :
      Effect cfg s x ⟨.remove clientID,(s.remove clientID x.err).1⟩ (s.remove clientID x.err).2
  | takeAll (refs : List ℕ) : refs.Perm (Hub.values s.connections) →
      Effect cfg s x ⟨.takeAll,refs⟩ s.takeAll
  | endRequest (ctx : ℕ) : Effect cfg s x ⟨.endRequest ctx,()⟩ { s with done := ctx :: s.done }

section Effects

variable {cfg : ManagerConfig} {s s' : Hub} {op : Op} {x : Choice} {ans : Ans op}

theorem dropSub_conns (s : Hub) (channel : String) (err : Option GoError) :
    (s.dropSub channel err).2.conns = s.conns := by
  unfold Hub.dropSub
  split
  · rfl
  · split <;> rfl

theorem remove_conns (s : Hub) (clientID : String) (err : Option GoError) :
    (s.remove clientID err).2.conns = s.conns := by
  unfold Hub.remove
  split
  · rfl
  · split
    · rfl
    · split_ifs
      · exact dropSub_conns _ _ _
      · rfl

theorem recordSub_conns (s : Hub) (channel : String) (sub : ℕ) (err : Option GoError) :
    (s.recordSub channel sub err).2.conns = s.conns := by
  unfold Hub.recordSub
  split
  · rfl
  · split <;> rfl

theorem takeAll_conns (s : Hub) : s.takeAll.conns = s.conns := by
  have hfold : ∀ (subs : List ℕ) (s : Hub), (subs.foldl Hub.closeSub s).conns = s.conns := by
    intro subs
    induction subs with
    | nil => exact fun _ => rfl
    | cons sub subs ih => exact fun s => (ih (s.closeSub sub)).trans rfl
  exact hfold _ s

theorem Effect.still (ev : Event Ans) (hconns : movesConns ev = false) (hbus : movesBus ev = false) :
    Effect cfg s x ev s := .clients ev s.conns hbus (.still ev hconns)

theorem effect_send (cfg : ManagerConfig) (s : Hub) (x : Choice) (ref : ℕ) (event : Evt) :
    Effect cfg s x ⟨.send ref event,(s.send cfg ref event).1⟩ (s.send cfg ref event).2 := by
  unfold Hub.send
  split
  · exact .still _ rfl rfl
  · rename_i conn hconn
    split_ifs with hclosed hroom
    · exact .still _ rfl rfl
    · exact .clients _ _ rfl (.send ref event conn hconn (by simpa using hclosed))
    · exact .still _ rfl rfl

theorem effect_await {ref ctx : ℕ} {last : Bool} {w : Wake}
    (h : s.await ref ctx last w = some s') : Effect cfg s x ⟨.await ref ctx last,w⟩ s' := by
  unfold Hub.await at h
  cases w with
  | done =>
    dsimp only at h
    split_ifs at h
    cases h
    exact .still _ rfl rfl
  | heartbeat written =>
    dsimp only at h
    split_ifs at h
    cases h
    exact .still _ rfl rfl
  | event e =>
    dsimp only at h
    split_ifs at h with hhead
    cases h
    cases hconn : s.conns[ref]? with
    | none => simp [hconn] at hhead
    | some conn =>
      exact .clients _ _ rfl (.receive ref ctx last e conn hconn (by simpa [hconn] using hhead.2))

theorem effect_exec (h : exec cfg s op x = some (ans,s')) : Effect cfg s x ⟨op,ans⟩ s' := by
  cases op with
  | nextEventID => cases x <;> cases h; exact .still _ rfl rfl
  | register c =>
    simp only [exec,Hub.register] at h
    split_ifs at h with hlocked hfull
    · cases h; exact .still _ rfl rfl
    · cases h; exact .register c (decide_eq_false hfull)
  | lookupSub channel =>
    simp only [exec] at h
    split_ifs at h
    cases h; exact .lookup channel
  | busSubscribe ctx channel =>
    simp only [exec] at h
    split at h
    · cases h; exact .still _ rfl rfl
    · split_ifs at h with hlive
      cases h; exact .subscribe ctx channel hlive
  | recordSub channel sub =>
    simp only [exec] at h
    split_ifs at h
    have heffect : Effect cfg s x _ _ := .record channel sub
    rwa [Option.some.inj h] at heffect
  | getSince channel lastEventID limit =>
    simp only [exec] at h
    split at h <;> cases h <;> exact .still _ rfl rfl
  | remove clientID =>
    simp only [exec] at h
    split_ifs at h
    have heffect : Effect cfg s x _ _ := .remove clientID
    rwa [Option.some.inj h] at heffect
  | beginClose ref =>
    simp only [exec] at h
    split at h
    · cases h
    · rename_i conn hconn
      split_ifs at h with hclosing
      · cases h; exact .clients _ _ rfl (.beginClose ref conn hconn hclosing)
      · cases h; exact .still _ rfl rfl
  | closeEvents ref => cases h; exact .clients _ _ rfl (.closeEvents ref)
  | append event =>
    simp only [exec] at h
    split at h
    · cases h; exact .still _ rfl rfl
    · cases h; exact .append event
  | busPublish event =>
    simp only [exec] at h
    split at h <;> cases h <;> exact .still _ rfl rfl
  | snapshot channel =>
    simp only [exec] at h
    split at h
    · split_ifs at h
      cases h; exact .still _ rfl rfl
    · cases h
  | checkClosed ref => cases h; exact .still _ rfl rfl
  | send ref event =>
    have heffect := effect_send cfg s x ref event
    rwa [Option.some.inj (h : some (s.send cfg ref event) = some (ans,s'))] at heffect
  | await ref ctx last =>
    simp only [exec] at h
    split at h
    · rw [Option.map_eq_some_iff] at h
      obtain ⟨s'',hs'',heq⟩ := h
      cases heq
      exact effect_await hs''
    · cases h
  | writeEvent ref event => cases h; exact .still _ rfl rfl
  | takeAll =>
    simp only [exec] at h
    split at h
    · split_ifs at h with hperm
      cases h; exact .takeAll _ hperm.2
    · cases h
  | unlock => cases h; exact .unlock
  | endRequest ctx => cases h; exact .endRequest ctx

theorem Effect.moves {ev : Event Ans} (h : Effect cfg s x ev s') : Moves s ev s'.conns := by
  cases h with
  | clients ev conns _ hmoves => exact hmoves
  | register c _ => exact .register c _
  | record channel sub => exact recordSub_conns s channel sub x.err ▸ .still _ rfl
  | remove clientID => exact remove_conns s clientID x.err ▸ .still _ rfl
  | takeAll refs _ => exact takeAll_conns s ▸ .still _ rfl
  | append | unlock | lookup | subscribe | endRequest => exact .still _ rfl

theorem moves_exec (h : exec cfg s op x = some (ans,s')) : Moves s ⟨op,ans⟩ s'.conns :=
  (effect_exec h).moves

theorem register_exec {c : Client} {ref : ℕ} {needSub : Bool}
    (h : exec cfg s (.register c) x = some (.ok (ref,needSub),s')) :
    ¬ (0 < cfg.maxConnections ∧ cfg.maxConnections ≤ s.connections.entries.length) ∧
    ref = s.conns.length ∧ needSub = (cfg.hasBus && (s.busSubscribers.lookup c.channel).isNone) ∧
    s' = { s.index c s.conns.length with conns := s.conns ++ [⟨c,[],false,false⟩] } := by
  simp only [exec,Hub.register] at h
  split_ifs at h with hlocked hfull
  · cases h
  · cases h
    exact ⟨hfull,rfl,rfl,rfl⟩

end Effects

section Clients

variable {s : Hub} {ev : Event Ans} {conns : List Conn} {ref : ℕ}

theorem clientAt_of_mem {conn : Conn} (h : s.conns[ref]? = some conn) :
    s.clientAt ref = some conn.client := by
  rw [Hub.clientAt,h]
  rfl

theorem client_modify (conns : List Conn) (ref ref' : ℕ) (f : Conn → Conn)
    (hf : ∀ conn, (f conn).client = conn.client) :
    (conns.modify ref f)[ref']?.map Conn.client = conns[ref']?.map Conn.client := by
  rw [List.getElem?_modify]
  cases conns[ref']? with
  | none => rfl
  | some conn => by_cases href : ref = ref' <;> simp [href,hf]

theorem moves_clientAt (h : Moves s ev conns) {c : Client}
    (hc : s.clientAt ref = some c) : conns[ref]?.map Conn.client = some c := by
  cases h with
  | still ev _ => exact hc
  | register c' needSub =>
    obtain ⟨conn,hconn,rfl⟩ := Option.map_eq_some_iff.mp hc
    rw [List.getElem?_append_left (List.getElem?_eq_some_iff.mp hconn).1,hconn]
    rfl
  | beginClose | closeEvents | send | receive =>
    refine (client_modify _ _ _ _ ?_).trans hc
    exact fun _ => rfl

end Clients

end Nimburion.HTTP.SSE
