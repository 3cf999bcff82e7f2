import Nimburion.Errors
import Nimburion.Lib.GoText
import Nimburion.Lib.GoTime
import Nimburion.Lib.Interaction
import Nimburion.Lib.Transaction

namespace Nimburion.Reliability
open Interaction GoTime Transaction

structure Fault (Op : Type) where
  err : Op → Option GoError
  clock : Time

def Fault.answer {Op α : Type} (f : Fault Op) (op : Op) (a : α) : Except GoError α :=
  match f.err op with
  | some e => .error e
  | none => .ok a

structure Tx (δ : Type) where
  db : δ
  ran : Bool

namespace Idempotency

inductive Op where
  | isProcessed (scope key : String)
  | handler
  | now
  | markProcessed (scope key : String) (processedAt : Time)
  deriving DecidableEq, Repr

abbrev Ans : Op → Type
  | .isProcessed .. => Except GoError Bool
  | .handler => Except GoError Unit
  | .now => Time
  | .markProcessed .. => Except GoError Unit

abbrev M := Prog Op Ans GoError

-- the captured variable executed is passed in and handed back with the callback's error
def callback (scope key : String) (executed : Bool) : M (Option GoError × Bool) := do
  let processed ← Prog.perform (Op.isProcessed scope key)
  match processed with
  | .error e => pure (some (.wrapped "check processed key failed: " e),executed)
  | .ok true => pure (none,false)
  | .ok false => do
      let handled ← Prog.perform Op.handler
      match handled with
      | .error e => pure (some e,executed)
      | .ok _ => do
          let now ← Prog.perform Op.now
          let marked ← Prog.perform (Op.markProcessed scope key now)
          match marked with
          | .error e => pure (some (.wrapped "mark processed key failed: " e),executed)
          | .ok _ => pure (none,true)

structure Db where
  processed : String → String → Option Time
  effects : List (String × String)

def Db.markProcessed (d : Db) (scope key : String) (processedAt : Time) : Db :=
  { d with processed := fun scope' key' =>
      if scope' = scope ∧ key' = key then some processedAt else d.processed scope' key' }

-- a handler's effects stay in the transaction also when it fails
def exec (caller : String × String) (f : Fault Op) (tx : Tx Db) : (op : Op) → Ans op × Tx Db
  | .isProcessed scope key =>
      (f.answer (.isProcessed scope key) (tx.db.processed scope key).isSome,tx)
  | .handler =>
      (f.answer .handler (),⟨{ tx.db with effects := caller :: tx.db.effects },true⟩)
  | .now => (f.clock,tx)
  | .markProcessed scope key processedAt =>
      (f.answer (.markProcessed scope key processedAt) (),
        { tx with db := tx.db.markProcessed scope key processedAt })

def invoke (k : String × String) (f : Fault Op) (executed : Bool) (db : Db) : Ended Db GoError :=
  match (callback k.1 k.2 executed).eval (exec k f) ⟨db,false⟩ with
  | (.ok (err,executed),tx) => ⟨err,executed,tx.ran,tx.db⟩
  | (.error e,tx) => ⟨some e,executed,tx.ran,tx.db⟩

def executeOnceTransactional (k : String × String) (x : Execution Db (Fault Op) GoError) (db : Db) :
    Ended Db GoError :=
  if k.1 = "" then ⟨some (.text "scope is required"),false,false,db⟩
  else if k.2 = "" then ⟨some (.text "key is required"),false,false,db⟩
  else run (invoke k) x db

def done (k : String × String) (db : Db) : Bool := (db.processed k.1 k.2).isSome

theorem commitsOnce : CommitsOnce invoke id done Db.effects := by
  intro k f executed db h
  simp only [invoke,callback,Prog.eval_bind,Prog.eval_perform,exec,Fault.answer] at h ⊢
  cases hcheck : f.err (.isProcessed k.1 k.2) with
  | some e => simp [hcheck] at h
  | none =>
    cases hdone : (db.processed k.1 k.2).isSome with
    | true => exact .inl (by simp)
    | false =>
      simp only [hcheck,hdone,Prog.eval_bind,Prog.eval_perform,exec,Fault.answer] at h ⊢
      cases hhandler : f.err .handler with
      | some e => simp [hhandler] at h
      | none =>
        simp only [hhandler,Prog.eval_bind,Prog.eval_perform,exec,Fault.answer] at h ⊢
        cases hmark : f.err (.markProcessed k.1 k.2 f.clock) with
        | some e => simp [hmark] at h
        | none =>
          refine .inr ⟨_,rfl,hdone,rfl,by simp [done,Db.markProcessed],?_⟩
          intro k' hk'
          simp only [done,Db.markProcessed]
          split_ifs
          · rfl
          · exact hk'

theorem guarded : Guarded executeOnceTransactional id done Db.effects := by
  refine guarded_of_commitsOnce commitsOnce ?_
  intro k x db
  unfold executeOnceTransactional
  split_ifs
  · exact .inl ⟨_,rfl⟩
  · exact .inl ⟨_,rfl⟩
  · exact .inr rfl

end Idempotency

namespace Inbox

structure Entry where
  consumerName : String
  messageID : String
  receivedAt : Time
  handledAt : Option Time
  status : String
  deriving DecidableEq, Repr

def statusReceived : String := "received"

def statusHandled : String := "handled"

def Entry.validate (e : Entry) : Except GoError Unit :=
  if e.consumerName = "" then .error (.text "inbox consumer name is required")
  else if e.messageID = "" then .error (.text "inbox message id is required")
  else if e.status = "" ∨ e.status = statusReceived ∨ e.status = statusHandled then .ok ()
  else .error (.text ("unsupported inbox status " ++ GoText.quote e.status))

inductive Op where
  | isHandled (consumerName messageID : String)
  | now
  | insertReceived (entry : Entry)
  | handler
  | markHandled (consumerName messageID : String) (handledAt : Time)
  deriving DecidableEq, Repr

abbrev Ans : Op → Type
  | .isHandled .. => Except GoError Bool
  | .now => Time
  | .insertReceived _ => Except GoError Unit
  | .handler => Except GoError Unit
  | .markHandled .. => Except GoError Unit

abbrev M := Prog Op Ans GoError

def receivedCopy (entry : Entry) : M Entry := do
  let entryCopy := { entry with status := if entry.status = "" then statusReceived else entry.status }
  if isZero entryCopy.receivedAt then do
    let now ← Prog.perform Op.now
    pure { entryCopy with receivedAt := now }
  else pure entryCopy

def callback (entry : Entry) (handled : Bool) : M (Option GoError × Bool) := do
  let alreadyHandled ← Prog.perform (Op.isHandled entry.consumerName entry.messageID)
  match alreadyHandled with
  | .error e => pure (some (.wrapped "check inbox state failed: " e),handled)
  | .ok true => pure (none,false)
  | .ok false => do
      let entryCopy ← receivedCopy entry
      let inserted ← Prog.perform (Op.insertReceived entryCopy)
      match inserted with
      | .error e => pure (some (.wrapped "record inbox receipt failed: " e),handled)
      | .ok _ => do
          let r ← Prog.perform Op.handler
          match r with
          | .error e => pure (some e,handled)
          | .ok _ => do
              let handledAt ← Prog.perform Op.now
              let marked ← Prog.perform
                (Op.markHandled entry.consumerName entry.messageID handledAt)
              match marked with
              | .error e => pure (some (.wrapped "mark inbox handled failed: " e),handled)
              | .ok _ => pure (none,true)

structure Db where
  rows : String → String → Option Entry
  effects : List (String × String)

def Db.set (d : Db) (consumerName messageID : String) (row : Option Entry) : Db :=
  { d with rows := fun consumer message =>
      if consumer = consumerName ∧ message = messageID then row else d.rows consumer message }

def Db.isHandled (d : Db) (consumerName messageID : String) : Bool :=
  (d.rows consumerName messageID).any fun row => row.status = statusHandled

-- a receipt already recorded is kept
def Db.insertReceived (d : Db) (entry : Entry) : Db :=
  d.set entry.consumerName entry.messageID
    (some ((d.rows entry.consumerName entry.messageID).getD entry))

def Db.markHandled (d : Db) (consumerName messageID : String) (handledAt : Time) : Db :=
  d.set consumerName messageID ((d.rows consumerName messageID).map fun row =>
    { row with status := statusHandled, handledAt := some handledAt })

def exec (caller : String × String) (f : Fault Op) (tx : Tx Db) : (op : Op) → Ans op × Tx Db
  | .isHandled consumerName messageID =>
      (f.answer (.isHandled consumerName messageID) (tx.db.isHandled consumerName messageID),tx)
  | .now => (f.clock,tx)
  | .insertReceived entry =>
      (f.answer (.insertReceived entry) (),{ tx with db := tx.db.insertReceived entry })
  | .handler =>
      (f.answer .handler (),⟨{ tx.db with effects := caller :: tx.db.effects },true⟩)
  | .markHandled consumerName messageID handledAt =>
      (f.answer (.markHandled consumerName messageID handledAt) (),
        { tx with db := tx.db.markHandled consumerName messageID handledAt })

def key (entry : Entry) : String × String := (entry.consumerName,entry.messageID)

def invoke (entry : Entry) (f : Fault Op) (handled : Bool) (db : Db) : Ended Db GoError :=
  match (callback entry handled).eval (exec (key entry) f) ⟨db,false⟩ with
  | (.ok (err,handled),tx) => ⟨err,handled,tx.ran,tx.db⟩
  | (.error e,tx) => ⟨some e,handled,tx.ran,tx.db⟩

def executeTransactional (entry : Entry) (x : Execution Db (Fault Op) GoError) (db : Db) :
    Ended Db GoError :=
  match entry.validate with
  | .error e => ⟨some e,false,false,db⟩
  | .ok _ => run (invoke entry) x db

def done (k : String × String) (db : Db) : Bool := db.isHandled k.1 k.2

theorem eval_receivedCopy (entry : Entry) (caller : String × String) (f : Fault Op) (tx : Tx Db) :
    ∃ copy : Entry, key copy = key entry ∧
      (receivedCopy entry).eval (exec caller f) tx = (.ok copy,tx) := by
  simp only [receivedCopy]
  by_cases hzero : isZero entry.receivedAt = true
  · rw [if_pos hzero]
    refine ⟨_,?_,rfl⟩
    rfl
  · rw [if_neg hzero]
    refine ⟨_,?_,rfl⟩
    rfl

theorem Db.rows_set (d : Db) (consumerName messageID consumer message : String)
    (row : Option Entry) : (d.set consumerName messageID row).rows consumer message =
      if consumer = consumerName ∧ message = messageID then row else d.rows consumer message := rfl

theorem commitsOnce : CommitsOnce invoke key done Db.effects := by
  intro entry f handled db h
  simp only [invoke,callback,Prog.eval_bind,Prog.eval_perform,exec,Fault.answer] at h ⊢
  cases hcheck : f.err (.isHandled entry.consumerName entry.messageID) with
  | some e => simp [hcheck] at h
  | none =>
    cases hdone : db.isHandled entry.consumerName entry.messageID with
    | true => exact .inl (by simp)
    | false =>
      obtain ⟨copy,hkey,hcopy⟩ := eval_receivedCopy entry (key entry) f ⟨db,false⟩
      simp only [hcheck,hdone,Prog.eval_bind,Prog.eval_perform,hcopy,exec,Fault.answer] at h ⊢
      cases hinsert : f.err (.insertReceived copy) with
      | some e => simp [hinsert] at h
      | none =>
        simp only [hinsert,Prog.eval_bind,Prog.eval_perform,exec,Fault.answer] at h ⊢
        cases hhandler : f.err .handler with
        | some e => simp [hhandler] at h
        | none =>
          simp only [hhandler,Prog.eval_bind,Prog.eval_perform,exec,Fault.answer] at h ⊢
          cases hmark : f.err (.markHandled entry.consumerName entry.messageID f.clock) with
          | some e => simp [hmark] at h
          | none =>
            simp only [key,Prod.mk.injEq] at hkey
            have hhandled : done (key entry) ((db.insertReceived copy).markHandled
                entry.consumerName entry.messageID f.clock) = true := by
              simp [done,key,Db.isHandled,Db.markHandled,Db.insertReceived,Db.rows_set,hkey]
            refine .inr ⟨_,rfl,hdone,rfl,hhandled,?_⟩
            intro k' hk'
            by_cases hsame : k' = key entry
            · rw [hsame]
              exact hhandled
            · have hother : ¬ (k'.1 = entry.consumerName ∧ k'.2 = entry.messageID) :=
                fun h => hsame (Prod.ext h.1 h.2)
              simpa [done,Db.isHandled,Db.markHandled,Db.insertReceived,Db.rows_set,hkey,hother]
                using hk'

theorem guarded : Guarded executeTransactional key done Db.effects := by
  refine guarded_of_commitsOnce commitsOnce ?_
  intro entry x db
  unfold executeTransactional
  cases entry.validate with
  | error e => exact .inl ⟨e,rfl⟩
  | ok => exact .inr rfl

end Inbox

section Calls

variable {δ φ κ : Type} (call : κ → Execution δ φ GoError → δ → Ended δ GoError)
  (key : κ → String × String) (effects : δ → List (String × String))

structure ExactlyOnce : Prop where
  committed : ∀ calls db k,
    (effects (final call calls db)).countP (· = k) ≤ (effects db).countP (· = k)+1
  returned : ∀ calls db k, (serial call calls db).countP (returnedTrue key k) ≤ 1
  faithful : ∀ calls db, ∀ e ∈ serial call calls db,
    (e.ended.flag = true ↔ e.ended.err = none ∧ e.ended.ran = true) ∧
    (e.ended.err ≠ none → e.ended.db = e.before)

theorem exactlyOnce_of_guarded {call : κ → Execution δ φ GoError → δ → Ended δ GoError}
    {key : κ → String × String} {done : String × String → δ → Bool}
    {effects : δ → List (String × String)} (h : Guarded call key done effects) :
    ExactlyOnce call key effects := by
  refine ⟨fun calls db k => ?_,fun calls db k => h.once calls db k,fun calls db => h.entry⟩
  rw [h.effects_count calls db k]
  exact Nat.add_le_add_left (h.once calls db k) _

end Calls

theorem transactional_calls_exactly_once :
    ExactlyOnce Idempotency.executeOnceTransactional id Idempotency.Db.effects ∧
    ExactlyOnce Inbox.executeTransactional Inbox.key Inbox.Db.effects :=
  ⟨exactlyOnce_of_guarded Idempotency.guarded,exactlyOnce_of_guarded Inbox.guarded⟩

end Nimburion.Reliability
