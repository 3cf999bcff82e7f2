import Nimburion.Errors
import Nimburion.Lib.GoText
import Nimburion.Lib.GoTime
import Nimburion.Lib.Interaction

namespace Nimburion.HTTP.Sessions
open Interaction GoTime GoText

abbrev Data := List (String × String)

namespace Data

def get (d : Data) (key : String) : Option String :=
  (d.find? fun p => p.1 = key).map Prod.snd

def put (d : Data) (key value : String) : Data := (key,value) :: d.filter fun p => p.1 ≠ key

def remove (d : Data) (key : String) : Data := d.filter fun p => p.1 ≠ key

end Data

structure Cfg where
  enabled : Bool
  hasStore : Bool
  ttl : Duration
  idleTimeout : Duration
  autoCreate : Bool
  deriving DecidableEq, Repr

def defaultConfig : Cfg := ⟨false,false,12*60*60*second,30*60*second,true⟩

def normalizeConfig (cfg : Cfg) : Cfg :=
  { cfg with
    ttl := if cfg.ttl ≤ 0 then defaultConfig.ttl else cfg.ttl
    idleTimeout := if cfg.idleTimeout ≤ 0 then defaultConfig.idleTimeout else cfg.idleTimeout }

theorem normalizeConfig_positive (cfg : Cfg) :
    0 < (normalizeConfig cfg).ttl ∧ 0 < (normalizeConfig cfg).idleTimeout := by
  have httl : 0 < defaultConfig.ttl := by decide
  have hidle : 0 < defaultConfig.idleTimeout := by decide
  constructor
  · simp only [normalizeConfig]
    split_ifs with h
    · exact httl
    · exact Int.not_le.mp h
  · simp only [normalizeConfig]
    split_ifs with h
    · exact hidle
    · exact Int.not_le.mp h

structure Session where
  id : String
  data : Data
  dirty : Bool
  destroyed : Bool
  renewed : Bool
  createErr : Option GoError
  deriving DecidableEq, Repr

-- the session cookies of a response that reach the client: http.SetCookie after the header is
-- written changes nothing, and `none` is the cookie that clears
structure Response where
  written : Bool
  cookies : List (Option String)
  deriving DecidableEq, Repr

def Response.write (r : Response) : Response := { r with written := true }

def Response.setCookie (r : Response) (value : Option String) : Response :=
  if r.written then r else { r with cookies := r.cookies ++ [value] }

structure Exchange where
  session : Session
  response : Response
  deriving DecidableEq, Repr

inductive LoadErr where
  | notFound
  | other (e : GoError)
  deriving DecidableEq, Repr

-- `next` is the time the handler takes; what it does to the session and the response stands in
-- the request's calls
inductive Op where
  | load (id : String)
  | generateSessionID
  | touch (id : String) (ttl : Duration)
  | next
  | save (id : String) (data : Data) (ttl : Duration)
  | delete (id : String)
  deriving DecidableEq, Repr

abbrev Ans : Op → Type
  | .load _ => Except LoadErr Data
  | .generateSessionID => Except GoError String
  | .touch .. => Except LoadErr Unit
  | .next => Unit
  | .save .. => Except GoError Unit
  | .delete _ => Except GoError Unit

abbrev M := Prog Op Ans GoError

inductive Call where
  | get (key : String)
  | set (key value : String)
  | delete (key : String)
  | renew
  | destroy
  | write
  deriving DecidableEq, Repr

-- `cookie` is what http.Request.Cookie finds under the configured name
structure Request where
  cookie : Option String
  calls : List Call
  handlerErr : Option GoError
  deriving DecidableEq, Repr

structure Result where
  response : Response
  err : Option GoError
  deriving DecidableEq, Repr

def readSessionID (r : Request) : String := (r.cookie.map trimSpace).getD ""

def onCreate (x : Exchange) (id : String) : Exchange :=
  if id = "" ∨ x.response.written then x else { x with response := x.response.setCookie (some id) }

def ensureID (x : Exchange) : M Exchange :=
  if x.session.id ≠ "" ∨ x.session.createErr.isSome then pure x
  else do
    let drawn ← Prog.perform Op.generateSessionID
    match drawn with
    | .error e => pure { x with session := { x.session with createErr := some e } }
    | .ok id => pure (onCreate { x with session := { x.session with id := id } } id)

def handle (x : Exchange) : Call → M Exchange
  | .get _ => pure x
  | .set key value =>
      if trimSpace key = "" then pure x
      else do
        let x ← ensureID x
        if x.session.createErr.isSome then pure x
        else pure { x with session := { x.session with
          data := x.session.data.put key value, dirty := true } }
  | .delete key =>
      if (x.session.data.get key).isSome then
        pure { x with session := { x.session with data := x.session.data.remove key, dirty := true } }
      else pure x
  | .renew => do
      let x ← ensureID x
      if x.session.createErr.isSome then pure x
      else pure { x with session := { x.session with renewed := true, dirty := true } }
  | .destroy =>
      pure { x with session := { x.session with destroyed := true, dirty := true, data := [] } }
  | .write => pure { x with response := x.response.write }

def handler : List Call → Exchange → M Exchange
  | [], x => pure x
  | c :: cs, x => handle x c >>= handler cs

def generateID : M String := do
  let drawn ← Prog.perform Op.generateSessionID
  match drawn with
  | .error e => Prog.fail e
  | .ok id => pure id

def currentID (s : Session) : M String := if s.id = "" then generateID else pure s.id

def renewedID (s : Session) (id : String) : M String := if s.renewed then generateID else pure id

def saveData (cfg : Cfg) (s : Session) (targetID : String) : M Unit :=
  if s.dirty ∨ s.renewed then do
    let saved ← Prog.perform (Op.save targetID s.data cfg.ttl)
    match saved with
    | .error e => Prog.fail e
    | .ok _ => pure ()
  else pure ()

def deleteID (id : String) : M Unit := do
  let _ ← Prog.perform (Op.delete id)
  pure ()

def deletePrevious (s : Session) (previousID targetID : String) : M Unit :=
  if s.renewed ∧ previousID ≠ "" ∧ previousID ≠ targetID then deleteID previousID else pure ()

def commit (cfg : Cfg) (previousID : String) (x : Exchange) : M Exchange :=
  match x.session.createErr with
  | some e => Prog.fail e
  | none =>
    if x.session.destroyed then
      if previousID ≠ "" then do
        deleteID previousID
        pure { x with response := x.response.setCookie none }
      else pure { x with response := x.response.setCookie none }
    else if x.session.id = "" ∧ x.session.dirty = false ∧ x.session.renewed = false then pure x
    else do
      let id ← currentID x.session
      let targetID ← renewedID x.session id
      saveData cfg x.session targetID
      deletePrevious x.session previousID targetID
      pure ⟨{ x.session with id := targetID },x.response.setCookie (some targetID)⟩

-- with no session in the context every session call is one on a nil receiver
def passthrough (r : Request) : Result :=
  ⟨⟨r.calls.any fun c => c = .write,[]⟩,r.handlerErr⟩

def conclude (r : Request) (x : Exchange) : Except GoError Exchange → Result
  | .ok x' => ⟨x'.response,r.handlerErr⟩
  | .error e => ⟨x.response,some (r.handlerErr.getD e)⟩

def touchSession (cfg : Cfg) (id : String) : M Unit :=
  if id ≠ "" ∧ 0 < cfg.idleTimeout then do
    let _ ← Prog.perform (Op.touch id cfg.idleTimeout)
    pure ()
  else pure ()

def announced (id : String) : Response :=
  if id ≠ "" then Response.setCookie ⟨false,[]⟩ (some id) else ⟨false,[]⟩

def withSession (cfg : Cfg) (r : Request) (s : Session) : M Result := do
  touchSession cfg s.id
  let _ ← Prog.perform Op.next
  let x ← handler r.calls ⟨s,announced s.id⟩
  let committed ← Prog.attempt (commit cfg (readSessionID r) x)
  pure (conclude r x committed)

def newSession (id : String) (data : Data) (dirty : Bool) : Session :=
  ⟨id,data,dirty,false,false,none⟩

def middleware (cfg : Cfg) (r : Request) : M Result :=
  if !cfg.enabled || !cfg.hasStore then do
    let _ ← Prog.perform Op.next
    pure (passthrough r)
  else if readSessionID r ≠ "" then do
    let stored ← Prog.perform (Op.load (readSessionID r))
    match stored with
    | .ok data => withSession cfg r (newSession (readSessionID r) data false)
    | .error .notFound => withSession cfg r (newSession (readSessionID r) [] false)
    | .error (.other e) => pure ⟨⟨false,[]⟩,some e⟩
  else if cfg.autoCreate then do
    let drawn ← Prog.perform Op.generateSessionID
    match drawn with
    | .error e => pure ⟨⟨false,[]⟩,some e⟩
    | .ok id => withSession cfg r (newSession id [] true)
  else withSession cfg r (newSession "" [] false)

-- what a call does to a session that has its ID
def apply (x : Exchange) : Call → Exchange
  | .get _ => x
  | .set key value =>
      if trimSpace key = "" then x
      else { x with session := { x.session with
        data := x.session.data.put key value, dirty := true } }
  | .delete key =>
      if (x.session.data.get key).isSome then
        { x with session := { x.session with data := x.session.data.remove key, dirty := true } }
      else x
  | .renew => { x with session := { x.session with renewed := true, dirty := true } }
  | .destroy =>
      { x with session := { x.session with destroyed := true, dirty := true, data := [] } }
  | .write => { x with response := x.response.write }

def applied (calls : List Call) (x : Exchange) : Exchange := calls.foldl apply x

def Call.sets : Call → Bool
  | .set key _ => trimSpace key ≠ ""
  | _ => false

def Call.edits (d : Data) : Call → Bool
  | .set key _ => trimSpace key ≠ ""
  | .delete key => (d.get key).isSome
  | .renew | .destroy => true
  | _ => false

def renews (calls : List Call) : Bool := calls.any fun c => c = .renew

def destroys (calls : List Call) : Bool := calls.any fun c => c = .destroy

def writes (calls : List Call) : Bool := calls.any fun c => c = .write

def edits (d : Data) (calls : List Call) : Bool := calls.any (Call.edits d)

structure Named (x : Exchange) : Prop where
  id : x.session.id ≠ ""
  created : x.session.createErr = none

theorem apply_set (x : Exchange) (key value : String) : apply x (.set key value) =
    if trimSpace key = "" then x
    else { x with session := { x.session with
      data := x.session.data.put key value, dirty := true } } := rfl

theorem apply_delete (x : Exchange) (key : String) : apply x (.delete key) =
    if (x.session.data.get key).isSome then
      { x with session := { x.session with data := x.session.data.remove key, dirty := true } }
    else x := rfl

theorem apply_id (x : Exchange) (c : Call) : (apply x c).session.id = x.session.id := by
  cases c with
  | set key value =>
    rw [apply_set]
    split_ifs <;> rfl
  | delete key =>
    rw [apply_delete]
    split_ifs <;> rfl
  | get | renew | destroy | write => rfl

theorem apply_createErr (x : Exchange) (c : Call) :
    (apply x c).session.createErr = x.session.createErr := by
  cases c with
  | set key value =>
    rw [apply_set]
    split_ifs <;> rfl
  | delete key =>
    rw [apply_delete]
    split_ifs <;> rfl
  | get | renew | destroy | write => rfl

theorem apply_cookies (x : Exchange) (c : Call) :
    (apply x c).response.cookies = x.response.cookies := by
  cases c with
  | set key value =>
    rw [apply_set]
    split_ifs <;> rfl
  | delete key =>
    rw [apply_delete]
    split_ifs <;> rfl
  | get | renew | destroy | write => rfl

theorem apply_renewed (x : Exchange) (c : Call) :
    (apply x c).session.renewed = (x.session.renewed || decide (c = .renew)) := by
  cases c with
  | set key value =>
    rw [apply_set]
    split_ifs <;> simp
  | delete key =>
    rw [apply_delete]
    split_ifs <;> simp
  | renew => exact (Bool.or_true _).symm
  | get | destroy | write => exact (Bool.or_false _).symm

theorem apply_destroyed (x : Exchange) (c : Call) :
    (apply x c).session.destroyed = (x.session.destroyed || decide (c = .destroy)) := by
  cases c with
  | set key value =>
    rw [apply_set]
    split_ifs <;> simp
  | delete key =>
    rw [apply_delete]
    split_ifs <;> simp
  | destroy => exact (Bool.or_true _).symm
  | get | renew | write => exact (Bool.or_false _).symm

theorem apply_written (x : Exchange) (c : Call) :
    (apply x c).response.written = (x.response.written || decide (c = .write)) := by
  cases c with
  | set key value =>
    rw [apply_set]
    split_ifs <;> simp
  | delete key =>
    rw [apply_delete]
    split_ifs <;> simp
  | write => exact (Bool.or_true _).symm
  | get | renew | destroy => exact (Bool.or_false _).symm

theorem apply_dirty (x : Exchange) (c : Call) :
    (apply x c).session.dirty = (x.session.dirty || c.edits x.session.data) := by
  cases c <;> simp only [apply,Call.edits] <;> (try split_ifs) <;> simp_all

theorem apply_data (x : Exchange) {c : Call} (h : c.edits x.session.data = false) :
    (apply x c).session.data = x.session.data := by
  cases c <;> simp_all [apply,Call.edits]

section Applied

variable (calls : List Call) (x : Exchange)

@[simp] theorem applied_nil : applied [] x = x := rfl

@[simp] theorem applied_cons (c : Call) :
    applied (c :: calls) x = applied calls (apply x c) := rfl

@[simp] theorem applied_id : (applied calls x).session.id = x.session.id := by
  induction calls generalizing x with
  | nil => rfl
  | cons c calls ih => rw [applied_cons,ih,apply_id]

@[simp] theorem applied_createErr :
    (applied calls x).session.createErr = x.session.createErr := by
  induction calls generalizing x with
  | nil => rfl
  | cons c calls ih => rw [applied_cons,ih,apply_createErr]

@[simp] theorem applied_cookies : (applied calls x).response.cookies = x.response.cookies := by
  induction calls generalizing x with
  | nil => rfl
  | cons c calls ih => rw [applied_cons,ih,apply_cookies]

@[simp] theorem applied_renewed :
    (applied calls x).session.renewed = (x.session.renewed || renews calls) := by
  induction calls generalizing x with
  | nil => simp [renews]
  | cons c calls ih => rw [applied_cons,ih,apply_renewed,renews,renews,List.any_cons,Bool.or_assoc]

@[simp] theorem applied_destroyed :
    (applied calls x).session.destroyed = (x.session.destroyed || destroys calls) := by
  induction calls generalizing x with
  | nil => simp [destroys]
  | cons c calls ih =>
    rw [applied_cons,ih,apply_destroyed,destroys,destroys,List.any_cons,Bool.or_assoc]

@[simp] theorem applied_written :
    (applied calls x).response.written = (x.response.written || writes calls) := by
  induction calls generalizing x with
  | nil => simp [writes]
  | cons c calls ih => rw [applied_cons,ih,apply_written,writes,writes,List.any_cons,Bool.or_assoc]

-- up to the first call that edits, the data is what was loaded
@[simp] theorem applied_dirty :
    (applied calls x).session.dirty = (x.session.dirty || edits x.session.data calls) := by
  induction calls generalizing x with
  | nil => simp [edits]
  | cons c calls ih =>
    have hcons : edits x.session.data (c :: calls) =
        (c.edits x.session.data || edits x.session.data calls) := List.any_cons
    rw [applied_cons,ih,apply_dirty,hcons]
    cases hc : c.edits x.session.data with
    | true => simp
    | false => rw [apply_data x hc,Bool.or_false,Bool.false_or]

theorem Named.apply {x : Exchange} (h : Named x) (c : Call) : Named (apply x c) :=
  ⟨by rw [apply_id]; exact h.id,by rw [apply_createErr]; exact h.created⟩

theorem ensureID_named {x : Exchange} (h : Named x) : ensureID x = pure x := by
  rw [ensureID,if_pos (.inl h.id)]

theorem handle_named {x : Exchange} (h : Named x) (c : Call) : handle x c = pure (apply x c) := by
  have hnone : x.session.createErr.isSome = false := by rw [h.created]; rfl
  cases c with
  | get key => rfl
  | set key value =>
    simp only [handle,apply,ensureID_named h]
    split_ifs
    · rfl
    · change (if x.session.createErr.isSome then _ else _) = _
      rw [hnone]
      rfl
  | delete key =>
    simp only [handle,apply]
    split_ifs <;> rfl
  | renew =>
    simp only [handle,apply,ensureID_named h]
    change (if x.session.createErr.isSome then _ else _) = _
    rw [hnone]
    rfl
  | destroy => rfl
  | write => rfl

theorem handler_named {x : Exchange} (h : Named x) : handler calls x = pure (applied calls x) := by
  induction calls generalizing x with
  | nil => rfl
  | cons c calls ih =>
    rw [handler,handle_named h]
    exact ih (h.apply c)

end Applied

end Nimburion.HTTP.Sessions
