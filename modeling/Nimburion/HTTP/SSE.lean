import Nimburion.Errors
import Nimburion.Lib.GoText
import Nimburion.Lib.GoTime
import Nimburion.Lib.Interaction
import Mathlib.Data.List.AList

namespace Nimburion.HTTP.SSE
open Interaction GoTime GoText

abbrev Map (β : Type) := AList fun _ : String => β

structure Evt where
  id : String
  channel : String
  tenantID : String
  subject : String
  type_ : String
  data : String
  retryMS : Int
  timestamp : Time
  deriving DecidableEq, Repr

structure ManagerConfig where
  maxConnections : Int
  clientBuffer : Int
  replayLimit : Int
  dropOnBackpressure : Bool
  defaultRetryMS : Int
  hasBus : Bool
  deriving DecidableEq, Repr

def defaultManagerConfig : ManagerConfig := ⟨10000,64,100,true,3000,false⟩

def normalizeManagerConfig (cfg : ManagerConfig) : ManagerConfig :=
  { cfg with
    maxConnections := if cfg.maxConnections ≤ 0 then defaultManagerConfig.maxConnections
      else cfg.maxConnections
    clientBuffer := if cfg.clientBuffer ≤ 0 then defaultManagerConfig.clientBuffer
      else cfg.clientBuffer
    replayLimit := if cfg.replayLimit ≤ 0 then defaultManagerConfig.replayLimit else cfg.replayLimit
    defaultRetryMS := if cfg.defaultRetryMS ≤ 0 then defaultManagerConfig.defaultRetryMS
      else cfg.defaultRetryMS }

structure SubscriptionRequest where
  clientID : String
  channel : String
  tenantID : String
  subject : String
  lastEventID : String
  deriving DecidableEq, Repr

structure PublishRequest where
  channel : String
  tenantID : String
  subject : String
  type_ : String
  data : String
  retryMS : Int
  deriving DecidableEq, Repr

-- `ctx` names the context of the request that subscribed
structure Client where
  id : String
  channel : String
  tenantID : String
  subject : String
  lastEvent : String
  ctx : ℕ
  deriving DecidableEq, Repr

def matchesRouting (c : Client) (event : Evt) : Bool :=
  if c.tenantID ≠ "" ∧ event.tenantID ≠ "" ∧ c.tenantID ≠ event.tenantID then false
  else if c.subject ≠ "" ∧ event.subject ≠ "" ∧ c.subject ≠ event.subject then false
  else true

def errTooManyConnections : GoError := .text "too many sse connections"

def errInvalidChannel : GoError := .text "invalid channel"

inductive SendResult where
  | sent
  | full
  | panicked
  deriving DecidableEq, Repr

inductive Wake where
  | done
  | heartbeat (written : Bool)
  | event (e : Evt)
  deriving DecidableEq, Repr

-- one operation per mutex section and per channel operation; a pointer to a client is its place
-- among the clients made so far
inductive Op where
  | nextEventID
  | register (c : Client)
  | lookupSub (channel : String)
  | busSubscribe (ctx : ℕ) (channel : String)
  | recordSub (channel : String) (sub : ℕ)
  | getSince (channel lastEventID : String) (limit : Int)
  | remove (clientID : String)
  | beginClose (ref : ℕ)
  | closeEvents (ref : ℕ)
  | append (event : Evt)
  | busPublish (event : Evt)
  | snapshot (channel : String)
  | checkClosed (ref : ℕ)
  | send (ref : ℕ) (event : Evt)
  | await (ref ctx : ℕ) (last : Bool)
  | writeEvent (ref : ℕ) (event : Evt)
  | takeAll
  | unlock
  | endRequest (ctx : ℕ)
  deriving DecidableEq, Repr

abbrev Ans : Op → Type
  | .nextEventID => String × Time
  | .register _ => Except GoError (ℕ × Bool)
  | .lookupSub _ => Bool
  | .busSubscribe .. => Except GoError ℕ
  | .recordSub .. => Except GoError Unit
  | .getSince .. => Except GoError (List Evt)
  | .remove _ => Option (ℕ × Option GoError)
  | .beginClose _ => Bool
  | .closeEvents _ => Unit
  | .append _ => Except GoError Unit
  | .busPublish _ => Except GoError Unit
  | .snapshot _ => List (ℕ × Client)
  | .checkClosed _ => Bool
  | .send .. => SendResult
  | .await .. => Wake
  | .writeEvent .. => Bool
  | .takeAll => List ℕ
  | .unlock => Unit
  | .endRequest _ => Unit

-- the failure of a program is a panic
abbrev M := Prog Op Ans GoError

def closeClient (ref : ℕ) : M Unit := do
  let first ← Prog.perform (Op.beginClose ref)
  if first then Prog.perform (Op.closeEvents ref) else pure ()

def disconnect (clientID : String) : M (Option GoError) := do
  let removed ← Prog.perform (Op.remove clientID)
  match removed with
  | none => pure none
  | some (ref,err) => do
      closeClient ref
      pure err

def ensureBusSubscription (ctx : ℕ) (channel : String) : M (Except GoError Unit) := do
  let existing ← Prog.perform (Op.lookupSub channel)
  if existing then pure (.ok ())
  else do
    let sub ← Prog.perform (Op.busSubscribe ctx channel)
    match sub with
    | .error e => pure (.error e)
    | .ok sub => Prog.perform (Op.recordSub channel sub)

def chooseClientID (value : String) : M String :=
  if trimSpace value ≠ "" then pure (trimSpace value)
  else do
    let next ← Prog.perform Op.nextEventID
    pure next.1

def newClient (ctx : ℕ) (req : SubscriptionRequest) (id : String) : Client :=
  ⟨id,trimSpace req.channel,trimSpace req.tenantID,trimSpace req.subject,trimSpace req.lastEventID,ctx⟩

def withdraw (clientID : String) (err : GoError) : M (Except GoError (ℕ × Client × List Evt)) := do
  let disconnectErr ← disconnect clientID
  pure (.error (match disconnectErr with
    | some e => GoError.join err e
    | none => err))

def replaySince (cfg : ManagerConfig) (ref : ℕ) (c : Client) :
    M (Except GoError (ℕ × Client × List Evt)) := do
  let replay ← Prog.perform (Op.getSince c.channel c.lastEvent cfg.replayLimit)
  match replay with
  | .error e => withdraw c.id e
  | .ok events => pure (.ok (ref,c,events))

def subscribe (cfg : ManagerConfig) (ctx : ℕ) (req : SubscriptionRequest) :
    M (Except GoError (ℕ × Client × List Evt)) :=
  if trimSpace req.channel = "" then pure (.error errInvalidChannel)
  else do
    let id ← chooseClientID req.clientID
    let registered ← Prog.perform (Op.register (newClient ctx req id))
    match registered with
    | .error e => pure (.error e)
    | .ok (ref,needSub) =>
        if needSub then do
          let ensured ← ensureBusSubscription ctx (trimSpace req.channel)
          match ensured with
          | .error e => withdraw id e
          | .ok _ => replaySince cfg ref (newClient ctx req id)
        else replaySince cfg ref (newClient ctx req id)

def enqueue (ref : ℕ) (event : Evt) : M Bool := do
  let closed ← Prog.perform (Op.checkClosed ref)
  if closed then pure false
  else do
    let result ← Prog.perform (Op.send ref event)
    match result with
    | .sent => pure true
    | .full => pure false
    | .panicked => Prog.fail (.text "send on closed channel")

def deliverTo (cfg : ManagerConfig) (event : Evt) : List (ℕ × Client) → M Unit
  | [] => pure ()
  | (ref,c) :: rest =>
      if matchesRouting c event then do
        let queued ← enqueue ref event
        if queued = false ∧ cfg.dropOnBackpressure then do
          let _ ← disconnect c.id
          deliverTo cfg event rest
        else deliverTo cfg event rest
      else deliverTo cfg event rest

def deliver (cfg : ManagerConfig) (event : Evt) : M Unit := do
  let clients ← Prog.perform (Op.snapshot event.channel)
  deliverTo cfg event clients

def newEvent (cfg : ManagerConfig) (req : PublishRequest) (stamp : String × Time) : Evt :=
  ⟨stamp.1,trimSpace req.channel,trimSpace req.tenantID,trimSpace req.subject,trimSpace req.type_,
    req.data,if req.retryMS ≤ 0 then cfg.defaultRetryMS else req.retryMS,stamp.2⟩

def publish (cfg : ManagerConfig) (req : PublishRequest) : M (Option GoError) :=
  if trimSpace req.channel = "" then pure (some errInvalidChannel)
  else do
    let stamp ← Prog.perform Op.nextEventID
    let appended ← Prog.perform (Op.append (newEvent cfg req stamp))
    match appended with
    | .error e => pure (some e)
    | .ok _ =>
        if cfg.hasBus then do
          let published ← Prog.perform (Op.busPublish (newEvent cfg req stamp))
          match published with
          | .error e => pure (some e)
          | .ok _ => pure none
        else do
          deliver cfg (newEvent cfg req stamp)
          pure none

def closeClients : List ℕ → M Unit
  | [] => pure ()
  | ref :: refs => do
      closeClient ref
      closeClients refs

-- Manager.Close holds the mutex until every client is closed
def close : M (Option GoError) := do
  let refs ← Prog.perform Op.takeAll
  closeClients refs
  let _ ← Prog.perform Op.unlock
  pure none

def writeReplay (ref : ℕ) : List Evt → M Bool
  | [] => pure true
  | event :: events => do
      let written ← Prog.perform (Op.writeEvent ref event)
      if written then writeReplay ref events else pure false

-- the handler's loop runs until the request's context or the client is done
def listen (ref ctx : ℕ) : ℕ → M Unit
  | 0 => do
      let _ ← Prog.perform (Op.await ref ctx true)
      pure ()
  | rounds+1 => do
      let wake ← Prog.perform (Op.await ref ctx false)
      match wake with
      | .done => pure ()
      | .heartbeat written => if written then listen ref ctx rounds else pure ()
      | .event e => do
          let written ← Prog.perform (Op.writeEvent ref e)
          if written then listen ref ctx rounds else pure ()

def serveClient (ref ctx : ℕ) (replay : List Evt) (rounds : ℕ) : M Unit := do
  let replayed ← writeReplay ref replay
  if replayed then listen ref ctx rounds else pure ()

def stream (cfg : ManagerConfig) (ctx : ℕ) (req : SubscriptionRequest) (rounds : ℕ) :
    M (Option GoError) := do
  let subscribed ← subscribe cfg ctx req
  match subscribed with
  | .error e => do
      let _ ← Prog.perform (Op.endRequest ctx)
      pure (some e)
  | .ok (ref,c,replay) => do
      serveClient ref ctx replay rounds
      let _ ← disconnect c.id
      let _ ← Prog.perform (Op.endRequest ctx)
      pure none

end Nimburion.HTTP.SSE
