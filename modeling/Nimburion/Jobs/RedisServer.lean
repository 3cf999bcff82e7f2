import Nimburion.Jobs.RedisBackend

namespace Nimburion.Jobs.RedisBackend
open Interaction GoText GoTime

inductive Call where
  | enqueue (job : Job)
  | reserve (queue : String) (leaseFor : Duration) (ctxErr : GoError) (rounds : ℕ)
  | ack (lease : Lease)
  | nack (lease : Lease) (nextRunAt : Time) (reason : Option GoError)
  | renew (lease : Lease) (leaseFor : Duration)
  | moveToDLQ (lease : Lease) (reason : Option GoError)
  | listDLQ (queue : String) (limit : Int)
  | replayDLQ (queue : String) (ids : List String)
  deriving DecidableEq

inductive Reply where
  | nil
  | reserved (job : Job) (lease : Lease)
  | entries (entries : List DLQRecord)
  | replayed (n : ℕ) (err : Option GoError)
  deriving DecidableEq

def program (b : Config) : Call → M Reply
  | .enqueue job => do enqueue b job; pure .nil
  | .reserve queue leaseFor ctxErr rounds => do
      let r ← reserve b queue leaseFor ctxErr rounds
      pure (.reserved r.1 r.2)
  | .ack lease => do ack b lease; pure .nil
  | .nack lease nextRunAt reason => do nack b lease nextRunAt reason; pure .nil
  | .renew lease leaseFor => do renew b lease leaseFor; pure .nil
  | .moveToDLQ lease reason => do moveToDLQ b lease reason; pure .nil
  | .listDLQ queue limit => do
      let entries ← listDLQ b queue limit
      pure (.entries entries)
  | .replayDLQ queue ids => do
      let r ← replayDLQ b queue ids
      pure (.replayed r.1 r.2)

inductive Effect where
  | enqueued (src : Source) (key : String) (val : Text)
  | acked (key : String) (val : Text)
  | transitioned (key : String) (current encoded : Text)
  deriving DecidableEq

structure Server where
  store : Redis.Store Text
  issued : List String
  effects : List Effect

def Server.empty : Server := ⟨.empty,[],[]⟩

inductive Outcome where
  | done
  | lostRequest (e : GoError)
  | lostReply (e : GoError)
  | closed
  | at (t : Time)
  | token (s : String)

def reply {α : Type} (s s' : Server) (a : α) : Outcome → Option (Except GoError α × Server)
  | .done => some (.ok a,s')
  | .lostRequest e => some (.error e,s)
  | .lostReply e => some (.error e,s')
  | _ => none

def hexToken (s : String) : Bool :=
  s ≠ "" && s.toList.all fun c => c.isDigit || ('a' ≤ c && c ≤ 'f')

theorem trimSpace_hexToken {s : String} (h : hexToken s = true) : trimSpace s = s := by
  simp only [hexToken,Bool.and_eq_true,decide_eq_true_eq,List.all_eq_true,Bool.or_eq_true] at h
  apply trimSpace_of_no_space
  intro c hc
  have hrange : 48 ≤ c.toNat ∧ c.toNat ≤ 102 := by
    rcases h.2 c hc with hd | ⟨ha,hf⟩
    · simp only [Char.isDigit,Bool.and_eq_true,decide_eq_true_eq,ge_iff_le,
        UInt32.le_iff_toNat_le] at hd
      have h0 : ('0').val.toNat = 48 := rfl
      have h9 : ('9').val.toNat = 57 := rfl
      unfold Char.toNat
      omega
    · have h1 : ('a').toNat ≤ c.toNat := ha
      have h2 : c.toNat ≤ ('f').toNat := hf
      have h3 : ('a').toNat = 97 := rfl
      have h4 : ('f').toNat = 102 := rfl
      omega
  simp only [isSpace,Bool.or_eq_false_iff,Bool.and_eq_false_iff,decide_eq_false_iff_not,
    beq_eq_false_iff_ne]
  omega

theorem hexToken_ne_empty {s : String} (h : hexToken s = true) : s ≠ "" := by
  simp only [hexToken,Bool.and_eq_true,decide_eq_true_eq] at h
  exact h.1

section Scripts

variable (textLe : Text → Text → Bool)

def reserveScript (r : Redis.Store Text) (delayed ready leasePrefix : String)
    (nowMs transferBatch leaseMs : Int) (token : String) : Option Text × Redis.Store Text :=
  let due := r.zrangeByScore textLe delayed nowMs transferBatch.toNat
  let r := due.foldl (fun r payload => (r.rpush ready payload).zrem delayed payload) r
  match r.lpop ready with
  | (none,r) => (none,r)
  | (some payload,r) => (some payload,r.setPX (leasePrefix ++ token) payload leaseMs)

def getAndDeleteScript (r : Redis.Store Text) (key : String) : Option Text × Redis.Store Text :=
  match r.get key with
  | none => (none,r)
  | some value => (some value,r.del key)

def transitionLeaseScript (r : Redis.Store Text) (lease ready delayed : String)
    (expected encoded : Text) (runAtMs nowMs : Int) : Int × Redis.Store Text :=
  match r.get lease with
  | none => (0,r)
  | some current =>
      if current ≠ expected then (-1,r)
      else
        let r := r.del lease
        if runAtMs ≤ nowMs then (1,r.rpush ready encoded) else (1,r.zadd delayed runAtMs encoded)

def exec (s : Server) (op : Op) (o : Outcome) : Option (Ans op × Server) :=
  match op with
  | .ensureOpen => match o with
      | .done => some (.ok (),s)
      | .closed => some (.error (.jobs .closed "redis backend is closed"),s)
      | _ => none
  | .now => match o with
      | .at t => some (t,s)
      | _ => none
  | .randomToken => match o with
      | .token t => if hexToken t then some (t,s) else none
      | _ => none
  | .rpush src key val => reply s { s with
        store := s.store.rpush key val
        effects := .enqueued src key val :: s.effects } () o
  | .zadd src key score member => reply s { s with
        store := s.store.zadd key score member
        effects := .enqueued src key member :: s.effects } () o
  | .reserveScript delayed ready leasePrefix nowMs transferBatch leaseMs token =>
      if token ∈ s.issued then none
      else
        let r := reserveScript textLe s.store delayed ready leasePrefix nowMs transferBatch
          leaseMs token
        reply s { s with store := r.2, issued := token :: s.issued } r.1 o
  | .getAndDeleteScript key =>
      let r := getAndDeleteScript s.store key
      reply s { s with
        store := r.2
        effects := (r.1.map (Effect.acked key)).toList ++ s.effects } r.1 o
  | .transitionLeaseScript lease ready delayed expected encoded runAtMs nowMs =>
      let r := transitionLeaseScript s.store lease ready delayed expected encoded runAtMs nowMs
      reply s { s with
        store := r.2
        effects := (if r.1 = 1 then [Effect.transitioned lease expected encoded] else []) ++
          s.effects } r.1 o
  | .pexpire key ms =>
      let r := s.store.pexpire key ms
      reply s { s with store := r.2 } r.1 o
  | .get key => reply s s (s.store.get key) o
  | .saveEntry entryKey val indexKey score id =>
      if id ∈ s.issued then none
      else reply s { s with
        store := (s.store.set entryKey val none).zadd indexKey score (.raw id)
        issued := id :: s.issued } () o
  | .removeEntry indexKey id entryKey => reply s { s with
        store := (s.store.zrem indexKey (.raw id)).del entryKey } () o
  | .zrevrange key limit => reply s s (s.store.zrevrange textLe key limit) o

abbrev System := Machine Ans GoError Server Call Reply Outcome ℕ

def system (c : Config) : System where
  program := program c.normalize
  exec := exec textLe
  env := fun s ms => { s with store := s.store.tick ms }

end Scripts

abbrev State := Interaction.Config Ans GoError Server Call Reply

abbrev Act := Action Call Outcome ℕ

def start : State := ⟨.empty,[]⟩

end Nimburion.Jobs.RedisBackend
