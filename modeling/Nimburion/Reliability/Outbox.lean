import Nimburion.Errors
import Nimburion.Lib.GoTime
import Nimburion.Lib.Interaction
import Mathlib.Data.List.Nodup
import Mathlib.Algebra.Group.Basic
import Mathlib.Algebra.Group.Int.Defs

namespace Nimburion.Reliability.Outbox
open Interaction GoTime

structure Record where
  id : String
  key : String
  payload : List UInt8
  headers : List (String × String)
  contentType : String
  deriving DecidableEq, Repr

structure Entry where
  id : String
  topic : String
  record : Option Record
  createdAt : Time
  availableAt : Time
  published : Bool
  publishedAt : Option Time
  retryCount : Int64
  lastError : String
  deriving DecidableEq, Repr

def Entry.validate (e : Entry) : Except GoError Unit :=
  if e.id = "" then .error (.text "outbox entry id is required")
  else if e.topic = "" then .error (.text "outbox entry topic is required")
  else match e.record with
    | none => .error (.text "outbox entry record is required")
    | some record =>
        if record.payload = [] then .error (.text "outbox entry record payload is required")
        else .ok ()

structure PublisherConfig where
  batchSize : Int64
  initialBackoff : Int64
  maxBackoff : Int64
  deriving DecidableEq, Repr

def PublisherConfig.normalize (c : PublisherConfig) : PublisherConfig where
  batchSize := if c.batchSize ≤ 0 then 100 else c.batchSize
  initialBackoff := if c.initialBackoff ≤ 0 then 1000000000 else c.initialBackoff
  maxBackoff := if c.maxBackoff ≤ 0 then 60000000000 else c.maxBackoff

def backoffLoop (maxBackoff : Int64) : ℕ → Int64 → Int64
  | 0, backoff => if maxBackoff < backoff then maxBackoff else backoff
  | n+1, backoff =>
      if maxBackoff ≤ backoff*2 then maxBackoff else backoffLoop maxBackoff n (backoff*2)

def exponentialBackoff (attempt initial maxBackoff : Int64) : Int64 :=
  if attempt ≤ 0 then initial else backoffLoop maxBackoff (attempt.toInt.toNat-1) initial

-- Publish gets the entry's topic and record; the entry itself labels the call
inductive Op where
  | fetchPending (limit : Int64) (now : Time)
  | publish (entry : Entry)
  | markPublished (id : String) (publishedAt : Time)
  | markFailed (id : String) (retryCount : Int64) (nextAttemptAt : Time) (reason : String)
  deriving DecidableEq, Repr

abbrev Ans : Op → Type
  | .fetchPending .. => Except GoError (List Entry)
  | .publish _ => Option GoError
  | .markPublished .. => Except GoError Unit
  | .markFailed .. => Except GoError Unit

abbrev M := Prog Op Ans GoError

section Relay

variable (cfg : PublisherConfig) (now : Time)

def publishEntry (entry : Entry) : M Unit :=
  match entry.validate with
  | .error e => Prog.fail (.wrapped "invalid outbox entry: " e)
  | .ok _ => do
      let published ← Prog.perform (Op.publish entry)
      match published with
      | some err => do
          let retryCount := entry.retryCount+1
          let backoff := exponentialBackoff retryCount cfg.initialBackoff cfg.maxBackoff
          let marked ← Prog.perform
            (Op.markFailed entry.id retryCount (now+backoff.toInt) err.message)
          match marked with
          | .error markErr =>
              Prog.fail (.pair "mark failed error after publish error (" "): " err markErr)
          | .ok _ => Prog.fail err
      | none => do
          let marked ← Prog.perform (Op.markPublished entry.id now)
          match marked with
          | .error e => Prog.fail (.wrapped "mark published failed: " e)
          | .ok _ => pure ()

def publishEntries : List Entry → M Unit
  | [] => pure ()
  | entry :: entries => do
      let _ ← (Prog.attempt (publishEntry cfg now entry) : M (Except GoError Unit))
      publishEntries entries

def tick : M Unit := do
  let fetched ← Prog.perform (Op.fetchPending cfg.batchSize now)
  match fetched with
  | .error e => Prog.fail (.wrapped "fetch pending outbox entries failed: " e)
  | .ok entries => publishEntries cfg now entries

end Relay

-- the order of a batch is the store's own
structure Store where
  rows : List Entry
  order : List Entry → List Entry
  ids_nodup : (rows.map Entry.id).Nodup
  order_perm : ∀ l, (order l).Perm l

def Entry.pending (now : Time) (e : Entry) : Bool := !e.published && e.availableAt ≤ now

namespace Store

def fetchPending (s : Store) (limit : Int64) (now : Time) : List Entry :=
  (s.order (s.rows.filter (Entry.pending now))).take limit.toInt.toNat

theorem map_id_update (rows : List Entry) (id : String) (f : Entry → Entry)
    (hf : ∀ e, (f e).id = e.id) :
    (rows.map fun e => if e.id = id then f e else e).map Entry.id = rows.map Entry.id := by
  simp only [List.map_map]
  refine List.map_congr_left fun e _ => ?_
  simp only [Function.comp]
  split_ifs
  · exact hf e
  · rfl

def update (s : Store) (id : String) (f : Entry → Entry) (hf : ∀ e, (f e).id = e.id) : Store where
  rows := s.rows.map fun e => if e.id = id then f e else e
  order := s.order
  ids_nodup := by rw [map_id_update s.rows id f hf]; exact s.ids_nodup
  order_perm := s.order_perm

def markPublished (s : Store) (id : String) (publishedAt : Time) : Store :=
  s.update id (fun e => { e with published := true, publishedAt := some publishedAt })
    fun _ => rfl

def markFailed (s : Store) (id : String) (retryCount : Int64) (nextAttemptAt : Time)
    (reason : String) : Store :=
  s.update id (fun e => { e with
    retryCount := retryCount, availableAt := nextAttemptAt, lastError := reason }) fun _ => rfl

end Store

def exec (publisher : Entry → Option GoError) (s : Store) : (op : Op) → Ans op × Store
  | .fetchPending limit now => (.ok (s.fetchPending limit now),s)
  | .publish entry => (publisher entry,s)
  | .markPublished id publishedAt => (.ok (),s.markPublished id publishedAt)
  | .markFailed id retryCount nextAttemptAt reason =>
      (.ok (),s.markFailed id retryCount nextAttemptAt reason)

def relay (publisher : Entry → Option GoError) (c : PublisherConfig) (s : Store) (now : Time) :
    Store :=
  ((tick c.normalize now).eval (exec publisher) s).2

namespace Store

def find (s : Store) (id : String) : Option Entry := s.rows.find? fun e => e.id = id

theorem find_update (s : Store) (id id' : String) (f : Entry → Entry) (hf : ∀ e, (f e).id = e.id) :
    (s.update id f hf).find id' = (s.find id').map fun e => if e.id = id then f e else e := by
  simp only [find,update,List.find?_map]
  congr 2
  funext e
  simp only [Function.comp]
  split_ifs <;> simp [hf]

theorem find_markPublished (s : Store) (id id' : String) (publishedAt : Time) :
    (s.markPublished id publishedAt).find id' = (s.find id').map fun e =>
      if e.id = id then { e with published := true, publishedAt := some publishedAt } else e := by
  unfold markPublished
  rw [find_update]

theorem find_markFailed (s : Store) (id id' : String) (retryCount : Int64) (nextAttemptAt : Time)
    (reason : String) : (s.markFailed id retryCount nextAttemptAt reason).find id' =
      (s.find id').map fun e => if e.id = id then { e with
        retryCount := retryCount, availableAt := nextAttemptAt, lastError := reason } else e := by
  unfold markFailed
  rw [find_update]

theorem id_of_find {s : Store} {id : String} {e : Entry} (h : s.find id = some e) : e.id = id := by
  simpa using List.find?_some h

theorem find_of_mem {s : Store} {e : Entry} (h : e ∈ s.rows) : s.find e.id = some e := by
  obtain ⟨e',he'⟩ := Option.isSome_iff_exists.mp
    (List.find?_isSome.mpr ⟨e,h,by simp⟩ : (s.rows.find? fun x => x.id = e.id).isSome = true)
  have hmem := List.mem_of_find?_eq_some he'
  have heq := List.inj_on_of_nodup_map s.ids_nodup hmem h (id_of_find he')
  rwa [heq] at he'

theorem mem_fetchPending {s : Store} {limit : Int64} {now : Time} {e : Entry}
    (h : e ∈ s.fetchPending limit now) : e ∈ s.rows ∧ e.pending now = true := by
  have hmem := (s.order_perm _).mem_iff.mp (List.mem_of_mem_take h)
  exact List.mem_filter.mp hmem

theorem fetchPending_nodup (s : Store) (limit : Int64) (now : Time) :
    ((s.fetchPending limit now).map Entry.id).Nodup := by
  refine List.Nodup.sublist ((List.take_sublist _ _).map _) ?_
  rw [((s.order_perm _).map Entry.id).nodup_iff]
  exact s.ids_nodup.sublist (List.filter_sublist.map _)

end Store

section Tick

variable (publisher : Entry → Option GoError) (cfg : PublisherConfig) (now : Time)

def Entry.relayed (e row : Entry) : Entry :=
  match e.validate,publisher e with
  | .error _,_ => row
  | .ok _,some err => { row with
      retryCount := e.retryCount+1
      availableAt := now+(exponentialBackoff (e.retryCount+1) cfg.initialBackoff
        cfg.maxBackoff).toInt
      lastError := err.message }
  | .ok _,none => { row with published := true, publishedAt := some now }

theorem find_publishEntry (s : Store) (e : Entry) (id : String) :
    (((publishEntry cfg now e).eval (exec publisher) s).2).find id =
      (s.find id).map fun row =>
        if row.id = e.id then e.relayed publisher cfg now row else row := by
  unfold publishEntry Entry.relayed
  cases e.validate with
  | error err => simp
  | ok =>
    simp only [Prog.eval_bind,Prog.eval_perform,exec]
    cases publisher e with
    | some err => exact Store.find_markFailed ..
    | none => exact Store.find_markPublished ..

theorem find_publishEntries (es : List Entry) (hnodup : (es.map Entry.id).Nodup) (s : Store)
    (id : String) : (((publishEntries cfg now es).eval (exec publisher) s).2).find id =
      (s.find id).map fun row =>
        (es.find? fun e => e.id = id).elim row fun e => e.relayed publisher cfg now row := by
  induction es generalizing s with
  | nil => simp [publishEntries]
  | cons e es ih =>
    rw [List.map_cons,List.nodup_cons] at hnodup
    simp only [publishEntries,Prog.eval_bind,Prog.eval_attempt]
    rw [ih hnodup.2,find_publishEntry,Option.map_map]
    refine Option.map_congr fun row hrow => ?_
    have hid := Store.id_of_find hrow
    simp only [Function.comp,hid]
    by_cases heq : e.id = id
    · have hnone : (es.find? fun e => e.id = id) = none := by
        rw [List.find?_eq_none]
        intro e' he' hid'
        have hid' : e'.id = id := by simpa using hid'
        exact hnodup.1 (List.mem_map.mpr ⟨e',he',hid'.trans heq.symm⟩)
      simp [heq,hnone]
    · simp [heq,Ne.symm heq]

end Tick

section Backoff

theorem toInt_double (b : Int64) : (b*2).toInt = (b.toInt*2).bmod (2^64) := by
  rw [Int64.toInt_mul]
  rfl

theorem bmod_double (x : Int) (n : ℕ) :
    ((x*2).bmod (2^64)*2^n).bmod (2^64) = (x*2^(n+1)).bmod (2^64) := by
  rw [Int.bmod_mul_bmod,Int.pow_succ,Int.mul_assoc,Int.mul_comm 2]

-- the doublings wrap as an int64 does; one of them reaches the maximum or the last is positive
def Delayed (cfg : PublisherConfig) (n : ℕ) : Prop :=
  (∃ i, 1 ≤ i ∧ i ≤ n ∧ cfg.maxBackoff.toInt ≤ (cfg.initialBackoff.toInt*2^i).bmod (2^64)) ∨
    0 < (cfg.initialBackoff.toInt*2^n).bmod (2^64)

theorem backoffLoop_pos_iff {maxBackoff : Int64} (hmax : 0 < maxBackoff) (n : ℕ) (b : Int64) :
    0 < backoffLoop maxBackoff n b ↔
      (∃ i, 1 ≤ i ∧ i ≤ n ∧ maxBackoff.toInt ≤ (b.toInt*2^i).bmod (2^64)) ∨
        0 < (b.toInt*2^n).bmod (2^64) := by
  induction n generalizing b with
  | zero =>
    have hb : (b.toInt*2^0).bmod (2^64) = b.toInt := by
      have := b.le_toInt
      have := b.toInt_lt
      rw [Int.pow_zero,Int.mul_one]
      exact Int.bmod_eq_of_le (by omega) (by omega)
    rw [hb]
    simp only [backoffLoop,Int64.lt_iff_toInt_lt] at hmax ⊢
    have hzero : (0 : Int64).toInt = 0 := rfl
    split_ifs <;> omega
  | succ n ih =>
    have hstep : ∀ i, ((b*2).toInt*2^i).bmod (2^64) = (b.toInt*2^(i+1)).bmod (2^64) := by
      intro i
      rw [toInt_double,bmod_double]
    have hone : (b.toInt*2^1).bmod (2^64) = (b*2).toInt := by rw [toInt_double,Int.pow_one]
    simp only [backoffLoop,Int64.le_iff_toInt_le]
    split_ifs with hreached
    · refine iff_of_true hmax (.inl ⟨1,Nat.le_refl 1,by omega,?_⟩)
      rwa [hone]
    · rw [ih,hstep]
      refine or_congr_left ⟨?_,?_⟩
      · rintro ⟨i,hi,hin,hle⟩
        rw [hstep] at hle
        exact ⟨i+1,by omega,by omega,hle⟩
      · rintro ⟨i,hi,hin,hle⟩
        have hne : i ≠ 1 := by
          rintro rfl
          rw [hone] at hle
          exact hreached hle
        obtain ⟨j,rfl⟩ : ∃ j, i = j+1 := ⟨i-1,by omega⟩
        refine ⟨j,by omega,by omega,?_⟩
        rwa [hstep]

theorem normalize_pos (c : PublisherConfig) :
    0 < c.normalize.initialBackoff ∧ 0 < c.normalize.maxBackoff := by
  simp only [PublisherConfig.normalize]
  constructor <;> split_ifs with h <;> first | decide | exact Int64.not_le.mp h

theorem exponentialBackoff_pos_iff (c : PublisherConfig) {retryCount : Int64}
    (hmax : retryCount ≠ Int64.maxValue) :
    0 < exponentialBackoff (retryCount+1) c.normalize.initialBackoff c.normalize.maxBackoff ↔
      Delayed c.normalize retryCount.toInt.toNat := by
  obtain ⟨hinitial,hmaxBackoff⟩ := normalize_pos c
  have hne : retryCount.toInt ≠ 2^63-1 := fun heq => hmax (Int64.toInt_inj.mp heq)
  have hge := retryCount.le_toInt
  have hlt := retryCount.toInt_lt
  have hone : (1 : Int64).toInt = 1 := rfl
  have hzero : (0 : Int64).toInt = 0 := rfl
  have hsucc : (retryCount+1).toInt = retryCount.toInt+1 := by
    rw [Int64.toInt_add,hone]
    exact Int.bmod_eq_of_le (by omega) (by omega)
  simp only [exponentialBackoff,Int64.le_iff_toInt_le,hsucc,hzero]
  split_ifs with hle
  · have hn : retryCount.toInt.toNat = 0 := by omega
    have hfirst := (backoffLoop_pos_iff hmaxBackoff 0 c.normalize.initialBackoff).mp (by
      simp only [backoffLoop]
      split_ifs
      · exact hmaxBackoff
      · exact hinitial)
    rw [hn]
    exact iff_of_true hinitial hfirst
  · have hn : (retryCount.toInt+1).toNat-1 = retryCount.toInt.toNat := by omega
    rw [hn]
    exact backoffLoop_pos_iff hmaxBackoff _ _

theorem bmod_of_small {x : Int} (h0 : 0 ≤ x) (h1 : x < 2^63) : x.bmod (2^64) = x :=
  Int.bmod_eq_of_le (by omega) (by omega)

theorem reached_or_small {cfg : PublisherConfig} (hinitial : 0 < cfg.initialBackoff.toInt)
    (hfits : cfg.initialBackoff.toInt < 2^62) (hmax : cfg.maxBackoff.toInt ≤ 2^62) (n : ℕ) :
    (∃ i, 1 ≤ i ∧ i ≤ n ∧ cfg.maxBackoff.toInt ≤ (cfg.initialBackoff.toInt*2^i).bmod (2^64)) ∨
      (0 < cfg.initialBackoff.toInt*2^n ∧ cfg.initialBackoff.toInt*2^n < 2^62) := by
  induction n with
  | zero => exact .inr ⟨by simpa using hinitial,by simpa using hfits⟩
  | succ n ih =>
    rcases ih with ⟨i,hi,hin,hle⟩ | ⟨hpos,hsmall⟩
    · exact .inl ⟨i,hi,by omega,hle⟩
    · have hdouble : cfg.initialBackoff.toInt*2^(n+1) = cfg.initialBackoff.toInt*2^n*2 := by
        rw [Int.pow_succ,Int.mul_assoc]
      by_cases hnext : cfg.initialBackoff.toInt*2^n*2 < 2^62
      · exact .inr (by rw [hdouble]; omega)
      · refine .inl ⟨n+1,by omega,Nat.le_refl _,?_⟩
        rw [hdouble,bmod_of_small (by omega) (by omega)]
        omega

theorem delayed_of_small {cfg : PublisherConfig} (hinitial : 0 < cfg.initialBackoff.toInt)
    (hfits : cfg.initialBackoff.toInt < 2^62) (hmax : cfg.maxBackoff.toInt ≤ 2^62) (n : ℕ) :
    Delayed cfg n := by
  rcases reached_or_small hinitial hfits hmax n with hreached | ⟨hpos,hsmall⟩
  · exact .inl hreached
  · refine .inr ?_
    rw [bmod_of_small (by omega) (by omega)]
    exact hpos

end Backoff

section Progress

variable (publisher : Entry → Option GoError) (c : PublisherConfig) (s : Store) (now : Time)

def Settled (e row : Entry) : Prop :=
  (row.published = true ∧ publisher e = none) ∨
    (row.published = false ∧ row.retryCount.toInt = e.retryCount.toInt+1 ∧ now < row.availableAt)

def Progress : Prop :=
  ∀ e ∈ s.fetchPending c.normalize.batchSize now,
    (∃ row, (relay publisher c s now).find e.id = some row ∧ Settled publisher now e row) ∧
    e.id ∉ ((relay publisher c s now).fetchPending c.normalize.batchSize now).map Entry.id

def Relayable (e : Entry) : Prop :=
  e.validate = .ok () ∧ (publisher e ≠ none →
    e.retryCount ≠ Int64.maxValue ∧ Delayed c.normalize e.retryCount.toInt.toNat)

variable {publisher c s now}

theorem find_relay {e : Entry} (he : e ∈ s.fetchPending c.normalize.batchSize now) :
    (relay publisher c s now).find e.id = some (e.relayed publisher c.normalize now e) := by
  have hnodup := s.fetchPending_nodup c.normalize.batchSize now
  have hself : (s.fetchPending c.normalize.batchSize now).find? (fun x => x.id = e.id) = some e := by
    obtain ⟨e',he'⟩ := Option.isSome_iff_exists.mp
      (List.find?_isSome.mpr ⟨e,he,by simp⟩ :
        ((s.fetchPending c.normalize.batchSize now).find? fun x => x.id = e.id).isSome = true)
    have heq := List.inj_on_of_nodup_map hnodup (List.mem_of_find?_eq_some he') he
      (by simpa using List.find?_some he')
    rwa [heq] at he'
  simp only [relay,tick,Prog.eval_bind,Prog.eval_perform,exec]
  rw [find_publishEntries publisher c.normalize now _ hnodup,
    Store.find_of_mem (Store.mem_fetchPending he).1,hself]
  rfl

theorem lt_add_iff (now d : Int) : now < now+d ↔ 0 < d := by omega

theorem settled_relayed_iff {e : Entry} (hpending : e.pending now = true) :
    Settled publisher now e (e.relayed publisher c.normalize now e) ↔ Relayable publisher c e := by
  simp only [Entry.pending,Bool.and_eq_true,Bool.not_eq_true',decide_eq_true_eq] at hpending
  obtain ⟨hunpublished,hdue⟩ := hpending
  unfold Relayable Settled Entry.relayed
  cases e.validate with
  | error err => simp [hunpublished]
  | ok =>
    cases hpub : publisher e with
    | none => simp
    | some err =>
      have hlt := e.retryCount.toInt_lt
      have hge := e.retryCount.le_toInt
      have hone : (1 : Int64).toInt = 1 := rfl
      have hsucc : (e.retryCount+1).toInt = e.retryCount.toInt+1 ↔
          e.retryCount ≠ Int64.maxValue := by
        rw [ne_eq,← Int64.toInt_inj,Int64.toInt_add,hone]
        have hmaxValue : Int64.maxValue.toInt = 2^63-1 := rfl
        rw [hmaxValue,Int.bmod_def]
        split_ifs <;> omega
      simp only [hunpublished,Bool.false_eq_true,false_and,false_or,hsucc,true_and,ne_eq,
        reduceCtorEq,not_false_eq_true,forall_const]
      refine and_congr_right fun hmax => ?_
      rw [← exponentialBackoff_pos_iff c hmax,Int64.lt_iff_toInt_lt]
      have hzero : (0 : Int64).toInt = 0 := rfl
      rw [hzero]
      exact lt_add_iff now _

theorem settled_not_pending {e row : Entry} (h : Settled publisher now e row) :
    row.pending now = false := by
  rcases h with ⟨hpublished,_⟩ | ⟨_,_,hlater⟩
  · simp [Entry.pending,hpublished]
  · simp only [Entry.pending,Bool.and_eq_false_iff,decide_eq_false_iff_not]
    exact .inr (Int.not_le.mpr hlater)

theorem not_refetched {s' : Store} {id : String} {row : Entry} {limit : Int64}
    (hfind : s'.find id = some row) (h : row.pending now = false) :
    id ∉ (s'.fetchPending limit now).map Entry.id := by
  intro hmem
  obtain ⟨row',hrow',rfl⟩ := List.mem_map.mp hmem
  obtain ⟨hin,hpending⟩ := Store.mem_fetchPending hrow'
  rw [Store.find_of_mem hin,Option.some.injEq] at hfind
  rw [hfind,h] at hpending
  cases hpending

theorem relay_progress_iff (publisher : Entry → Option GoError) (c : PublisherConfig) (s : Store)
    (now : Time) : Progress publisher c s now ↔
      ∀ e ∈ s.fetchPending c.normalize.batchSize now, Relayable publisher c e := by
  refine forall₂_congr fun e he => ?_
  rw [find_relay he,← settled_relayed_iff (Store.mem_fetchPending he).2]
  constructor
  · rintro ⟨⟨row,hrow,hsettled⟩,_⟩
    rwa [Option.some.inj hrow]
  · intro hsettled
    exact ⟨⟨_,rfl,hsettled⟩,not_refetched (find_relay he) (settled_not_pending hsettled)⟩

end Progress

def retrying (id : String) (payload : List UInt8) (retryCount : Int64) : Entry :=
  ⟨id,"events.users",some ⟨"msg_1","k1",payload,[],""⟩,-60*second,-1*second,false,none,retryCount,""⟩

def storeOf (e : Entry) : Store := ⟨[e],id,by simp,fun _ => .refl _⟩

theorem invalid_or_overflowing_entry_refetched :
    ¬ Progress (fun _ => none) ⟨1,0,0⟩ (storeOf (retrying "1" [] 0)) 0 ∧
    ¬ Progress (fun _ => some (.text "broker down")) ⟨1,0,Int64.maxValue⟩
      (storeOf (retrying "1" [111] 34)) 0 := by
  constructor
  · intro h
    exact (h (retrying "1" [] 0) (by decide +kernel)).2 (by decide +kernel)
  · intro h
    exact (h (retrying "1" [111] 34) (by decide +kernel)).2 (by decide +kernel)

end Nimburion.Reliability.Outbox
