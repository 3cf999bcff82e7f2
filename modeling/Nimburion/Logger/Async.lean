import Nimburion.Lib.Channel
import Nimburion.Lib.Transition
import Mathlib.Data.Int.Notation
import Mathlib.Data.List.Nodup
import Mathlib.Data.List.Perm.Basic

namespace Nimburion.Logger
open Transition

structure AsyncConfig where
  enabled : Bool
  queueSize : ℤ
  workerCount : ℤ
  dropWhenFull : Bool
  deriving DecidableEq, Repr

inductive LogLevel where
  | debug
  | info
  | warn
  | error
  deriving DecidableEq, Repr

-- `base` is the logger of the receiver: With and WithContext change it and share the dispatcher
structure AsyncEntry (B A : Type) where
  base : B
  level : LogLevel
  msg : String
  args : List A
  deriving DecidableEq, Repr

inductive Phase where
  | called
  | sending
  | bypassing
  | queued
  | dropped
  | logged
  | panicked
  deriving DecidableEq, Repr

inductive Worker (E : Type) where
  | ranging
  | writing (entry : E)
  | done
  deriving DecidableEq, Repr

def Worker.hand {E : Type} : Worker E → List E
  | .writing entry => [entry]
  | _ => []

def Worker.left {E : Type} : Worker E → Bool
  | .done => true
  | _ => false

theorem Worker.left_iff {E : Type} {t : Worker E} : t.left = true ↔ t = .done := by
  cases t <;> simp [Worker.left]

-- how far the one call inside stopOnce.Do has come
inductive Once where
  | fresh
  | storing
  | closing
  | waiting
  | done
  deriving DecidableEq, Repr

inductive Closer where
  | called
  | inside
  | returned
  | panicked
  deriving DecidableEq, Repr

variable {B A : Type}

-- an entry carries the number of its call; the last three lists are not in the source:
-- what the channel took, what the workers wrote and what the callers wrote themselves
structure Dispatcher (B A : Type) where
  entries : Channel (ℕ × AsyncEntry B A)
  dropWhenFull : Bool
  stopped : Bool
  once : Once
  workers : List (Worker (ℕ × AsyncEntry B A))
  calls : List (Phase × AsyncEntry B A)
  closers : List Closer
  accepted : List (ℕ × AsyncEntry B A)
  drained : List (ℕ × AsyncEntry B A)
  direct : List (ℕ × AsyncEntry B A)
  deriving DecidableEq, Repr

-- none is the base logger itself
def wrapAsync (cfg : AsyncConfig) : Option (Dispatcher B A) :=
  if cfg.enabled then
    let queueSize := if cfg.queueSize ≤ 0 then 1024 else cfg.queueSize
    let workerCount := if cfg.workerCount ≤ 0 then 1 else cfg.workerCount
    some ⟨Channel.make queueSize.toNat,cfg.dropWhenFull,false,.fresh,
      List.replicate workerCount.toNat .ranging,[],[],[],[],[]⟩
  else none

-- one label for each section between two points where another goroutine may run
inductive Label (B A : Type) where
  | log (entry : AsyncEntry B A)
  | load (i : ℕ)
  | send (i : ℕ)
  | logNow (i : ℕ)
  | receive (k : ℕ)
  | write (k : ℕ)
  | leave (k : ℕ)
  | close
  | enter (c : ℕ)
  | store (c : ℕ)
  | closeEntries (c : ℕ)
  | wait (c : ℕ)
  deriving DecidableEq, Repr

namespace Dispatcher

def setCall (d : Dispatcher B A) (i : ℕ) (phase : Phase) (entry : AsyncEntry B A) : Dispatcher B A :=
  { d with calls := d.calls.set i (phase,entry) }

def setWorker (d : Dispatcher B A) (k : ℕ) (t : Worker (ℕ × AsyncEntry B A)) : Dispatcher B A :=
  { d with workers := d.workers.set k t }

def setCloser (d : Dispatcher B A) (c : ℕ) (t : Closer) : Dispatcher B A :=
  { d with closers := d.closers.set c t }

-- a send without a default waits while the channel is full
def send (d : Dispatcher B A) (i : ℕ) (entry : AsyncEntry B A) : Option (Dispatcher B A) :=
  match d.entries.offer (i,entry) with
  | .sent ch => some { d.setCall i .queued entry with
      entries := ch, accepted := d.accepted ++ [(i,entry)] }
  | .full => if d.dropWhenFull then some (d.setCall i .dropped entry) else none
  | .panicked => some (d.setCall i .panicked entry)

def enter (d : Dispatcher B A) (c : ℕ) : Option (Dispatcher B A) :=
  match d.once with
  | .fresh => some { d.setCloser c .inside with once := .storing }
  | .done => some (d.setCloser c .returned)
  | _ => none

def closeEntries (d : Dispatcher B A) (c : ℕ) : Dispatcher B A :=
  match d.entries.close with
  | some ch => { d with entries := ch, once := .waiting }
  | none => d.setCloser c .panicked

def step (d : Dispatcher B A) : Label B A → Option (Dispatcher B A)
  | .log entry => some { d with calls := d.calls ++ [(.called,entry)] }
  | .load i => match d.calls[i]? with
    | some (.called,entry) => some (d.setCall i (if d.stopped then .bypassing else .sending) entry)
    | _ => none
  | .send i => match d.calls[i]? with
    | some (.sending,entry) => d.send i entry
    | _ => none
  | .logNow i => match d.calls[i]? with
    | some (.bypassing,entry) =>
      some { d.setCall i .logged entry with direct := d.direct ++ [(i,entry)] }
    | _ => none
  | .receive k => match d.workers[k]?,d.entries.receive with
    | some .ranging,some (entry,ch) => some { d.setWorker k (.writing entry) with entries := ch }
    | _,_ => none
  | .write k => match d.workers[k]? with
    | some (.writing entry) => some { d.setWorker k .ranging with drained := d.drained ++ [entry] }
    | _ => none
  | .leave k => match d.workers[k]? with
    | some .ranging =>
      if d.entries.closed ∧ d.entries.buffer = [] then some (d.setWorker k .done) else none
    | _ => none
  | .close => some { d with closers := d.closers ++ [.called] }
  | .enter c => match d.closers[c]? with
    | some .called => d.enter c
    | _ => none
  | .store c => match d.closers[c]?,d.once with
    | some .inside,.storing => some { d with stopped := true, once := .closing }
    | _,_ => none
  | .closeEntries c => match d.closers[c]?,d.once with
    | some .inside,.closing => some (d.closeEntries c)
    | _,_ => none
  | .wait c => match d.closers[c]?,d.once with
    | some .inside,.waiting =>
      if d.workers.all Worker.left then some { d.setCloser c .returned with once := .done } else none
    | _,_ => none

inductive Taken (d : Dispatcher B A) : Label B A → Dispatcher B A → Prop
  | log (entry : AsyncEntry B A) :
      Taken d (.log entry) { d with calls := d.calls ++ [(.called,entry)] }
  | load {i : ℕ} {entry : AsyncEntry B A} (hcall : d.calls[i]? = some (.called,entry)) :
      Taken d (.load i) (d.setCall i (if d.stopped then .bypassing else .sending) entry)
  | sent {i : ℕ} {entry : AsyncEntry B A} (hcall : d.calls[i]? = some (.sending,entry))
      (hopen : d.entries.closed = false) : Taken d (.send i) { d.setCall i .queued entry with
        entries := { d.entries with buffer := d.entries.buffer ++ [(i,entry)] }
        accepted := d.accepted ++ [(i,entry)] }
  | dropped {i : ℕ} {entry : AsyncEntry B A} (hcall : d.calls[i]? = some (.sending,entry))
      (hopen : d.entries.closed = false) (hfull : d.entries.capacity ≤ d.entries.buffer.length)
      (hdrop : d.dropWhenFull = true) : Taken d (.send i) (d.setCall i .dropped entry)
  | sendPanics {i : ℕ} {entry : AsyncEntry B A} (hcall : d.calls[i]? = some (.sending,entry))
      (hclosed : d.entries.closed = true) : Taken d (.send i) (d.setCall i .panicked entry)
  | logNow {i : ℕ} {entry : AsyncEntry B A} (hcall : d.calls[i]? = some (.bypassing,entry)) :
      Taken d (.logNow i) { d.setCall i .logged entry with direct := d.direct ++ [(i,entry)] }
  | receive {k : ℕ} {x : ℕ × AsyncEntry B A} {ch : Channel (ℕ × AsyncEntry B A)}
      (hworker : d.workers[k]? = some .ranging) (hbuffer : d.entries.buffer = x :: ch.buffer)
      (hclosed : ch.closed = d.entries.closed) :
      Taken d (.receive k) { d.setWorker k (.writing x) with entries := ch }
  | write {k : ℕ} {x : ℕ × AsyncEntry B A} (hworker : d.workers[k]? = some (.writing x)) :
      Taken d (.write k) { d.setWorker k .ranging with drained := d.drained ++ [x] }
  | leave {k : ℕ} (hworker : d.workers[k]? = some .ranging) (hclosed : d.entries.closed = true)
      (hempty : d.entries.buffer = []) : Taken d (.leave k) (d.setWorker k .done)
  | close : Taken d .close { d with closers := d.closers ++ [.called] }
  | enter {c : ℕ} (hcloser : d.closers[c]? = some .called) (honce : d.once = .fresh) :
      Taken d (.enter c) { d.setCloser c .inside with once := .storing }
  | entered {c : ℕ} (hcloser : d.closers[c]? = some .called) (honce : d.once = .done) :
      Taken d (.enter c) (d.setCloser c .returned)
  | store {c : ℕ} (honce : d.once = .storing) :
      Taken d (.store c) { d with stopped := true, once := .closing }
  | closeEntries {c : ℕ} (honce : d.once = .closing) (hopen : d.entries.closed = false) :
      Taken d (.closeEntries c) { d with
        entries := { d.entries with closed := true }, once := .waiting }
  | closePanics {c : ℕ} (honce : d.once = .closing) (hclosed : d.entries.closed = true) :
      Taken d (.closeEntries c) (d.setCloser c .panicked)
  | wait {c : ℕ} (honce : d.once = .waiting) (hleft : ∀ t ∈ d.workers, t = .done) :
      Taken d (.wait c) { d.setCloser c .returned with once := .done }

theorem taken_of_send {d d' : Dispatcher B A} {i : ℕ} {entry : AsyncEntry B A}
    (hcall : d.calls[i]? = some (.sending,entry)) (h : d.send i entry = some d') :
    Taken d (.send i) d' := by
  unfold send at h
  cases hclosed : d.entries.closed with
  | true =>
    simp only [Channel.offer,hclosed,↓reduceIte,Option.some.injEq] at h
    exact h ▸ .sendPanics hcall hclosed
  | false =>
    rcases Channel.offer_open hclosed (i,entry) with ⟨hfull,hlen⟩ | hsent
    · simp only [hfull,Option.ite_none_right_eq_some,Option.some.injEq] at h
      exact h.2 ▸ .dropped hcall hclosed hlen h.1
    · simp only [hsent,Option.some.injEq] at h
      exact h ▸ .sent hcall hclosed

theorem taken_of_closeEntries {d : Dispatcher B A} {c : ℕ} (honce : d.once = .closing) :
    Taken d (.closeEntries c) (d.closeEntries c) := by
  unfold closeEntries Channel.close
  cases hclosed : d.entries.closed with
  | true => exact .closePanics honce hclosed
  | false => exact .closeEntries honce hclosed

theorem taken_of_step {d d' : Dispatcher B A} {a : Label B A} (h : d.step a = some d') :
    Taken d a d' := by
  cases a with
  | log entry =>
    simp only [step,Option.some.injEq] at h
    exact h ▸ .log entry
  | load i =>
    simp only [step] at h
    split at h
    · next hcall =>
      simp only [Option.some.injEq] at h
      exact h ▸ .load hcall
    · exact nomatch h
  | send i =>
    simp only [step] at h
    split at h
    · next hcall => exact taken_of_send hcall h
    · exact nomatch h
  | logNow i =>
    simp only [step] at h
    split at h
    · next hcall =>
      simp only [Option.some.injEq] at h
      exact h ▸ .logNow hcall
    · exact nomatch h
  | receive k =>
    simp only [step] at h
    split at h
    · next hworker hreceive =>
      simp only [Option.some.injEq] at h
      obtain ⟨hbuffer,hclosed⟩ := Channel.receive_eq_some hreceive
      exact h ▸ .receive hworker hbuffer hclosed
    · exact nomatch h
  | write k =>
    simp only [step] at h
    split at h
    · next hworker =>
      simp only [Option.some.injEq] at h
      exact h ▸ .write hworker
    · exact nomatch h
  | leave k =>
    simp only [step] at h
    split at h
    · next hworker =>
      simp only [Option.ite_none_right_eq_some,Option.some.injEq] at h
      obtain ⟨⟨hclosed,hempty⟩,rfl⟩ := h
      exact .leave hworker hclosed hempty
    · exact nomatch h
  | close =>
    simp only [step,Option.some.injEq] at h
    exact h ▸ .close
  | enter c =>
    simp only [step,enter] at h
    split at h
    · next hcloser =>
      split at h
      · next honce =>
        simp only [Option.some.injEq] at h
        exact h ▸ .enter hcloser honce
      · next honce =>
        simp only [Option.some.injEq] at h
        exact h ▸ .entered hcloser honce
      · exact nomatch h
    · exact nomatch h
  | store c =>
    simp only [step] at h
    split at h
    · next hcloser honce =>
      simp only [Option.some.injEq] at h
      exact h ▸ .store honce
    · exact nomatch h
  | closeEntries c =>
    simp only [step] at h
    split at h
    · next hcloser honce =>
      simp only [Option.some.injEq] at h
      exact h ▸ taken_of_closeEntries honce
    · exact nomatch h
  | wait c =>
    simp only [step] at h
    split at h
    · next hcloser honce =>
      simp only [Option.ite_none_right_eq_some,Option.some.injEq,List.all_eq_true] at h
      obtain ⟨hleft,rfl⟩ := h
      exact .wait honce fun t ht => Worker.left_iff.mp (hleft t ht)
    · exact nomatch h

end Dispatcher

end Nimburion.Logger
