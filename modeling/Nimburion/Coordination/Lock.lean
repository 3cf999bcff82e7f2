import Nimburion.Errors
import Nimburion.Lib.GoText
import Nimburion.Lib.GoTime
import Nimburion.Lib.Interaction
import Nimburion.Lib.LeaseTable

namespace Nimburion.Coordination
open Interaction GoText GoTime LeaseTable

structure LockLease where
  key : String
  token : String
  expireAt : Time
  deriving DecidableEq, Repr

def errConflict : GoError := .text "coordination conflict"

def errRetryable : GoError := .text "coordination retryable error"

def errInvalidArgument : GoError := .text "coordination invalid argument"

def coordinationError (kind : GoError) (message : String) : GoError :=
  .wrapped (message ++ ": ") kind

theorem wraps_coordinationError (kind : GoError) (message : String) :
    GoError.wraps kind (coordinationError kind message) = true := by
  have hself : GoError.wraps kind kind = true := by
    unfold GoError.wraps
    simp
  rw [coordinationError,GoError.wraps,hself]
  simp

-- sixteen random bytes in hex: no blanks, never empty
structure Token where
  text : String
  plain : trimSpace text = text ∧ text ≠ ""
  deriving DecidableEq

-- one atomic command at the server: SET NX or the upsert, the renew and the release script or
-- the conditional UPDATE and DELETE
inductive Command where
  | claim (key token : String) (arg : Int)
  | extend (key token : String) (arg : Int)
  | drop (key token : String)
  deriving DecidableEq, Repr

inductive Op where
  | now
  | randomToken
  | run (cmd : Command)
  deriving DecidableEq, Repr

-- `unread` is a command that ran and whose result cannot be read
inductive Answer where
  | rows (changed : Bool)
  | failed (e : GoError)
  | unread (e : GoError)
  deriving DecidableEq, Repr

abbrev Ans : Op → Type
  | .now => Time
  | .randomToken => Token
  | .run _ => Answer

abbrev M := Prog Op Ans GoError

inductive Result where
  | acquired (lease : LockLease)
  | notAcquired
  | renewed (lease : LockLease)
  | released
  deriving DecidableEq, Repr

inductive Call where
  | acquire (key : String) (ttl : Duration)
  | renew (lease : Option LockLease) (ttl : Duration)
  | release (lease : Option LockLease)
  deriving DecidableEq, Repr

abbrev Locks := Table String String

structure Provider where
  acquire : String → Duration → M Result
  renew : Option LockLease → Duration → M Result
  release : Option LockLease → M Result
  storedKey : String → String
  alive : Time → Row String → Bool
  serve : Time → Locks → Command → Bool × Locks

def Provider.program (p : Provider) : Call → M Result
  | .acquire key ttl => p.acquire key ttl
  | .renew lease ttl => p.renew lease ttl
  | .release lease => p.release lease

structure Server where
  clock : Time
  table : Locks
  issued : List Token

inductive Outcome where
  | done
  | lostRequest (e : GoError)
  | lostReply (e : GoError)
  | unread (e : GoError)
  | token (t : Token)

def reply (s : Server) (r : Bool × Locks) : Outcome → Option (Answer × Server)
  | .done => some (.rows r.1,{ s with table := r.2 })
  | .lostRequest e => some (.failed e,s)
  | .lostReply e => some (.failed e,{ s with table := r.2 })
  | .unread e => some (.unread e,{ s with table := r.2 })
  | .token _ => none

def exec (p : Provider) (s : Server) (op : Op) (o : Outcome) : Option (Ans op × Server) :=
  match op with
  | .now => some (s.clock,s)
  | .randomToken => match o with
      | .token t => if t ∈ s.issued then none else some (t,{ s with issued := t :: s.issued })
      | _ => none
  | .run cmd => reply s (p.serve s.clock s.table cmd) o

abbrev Trace := List (Event Ans)

abbrev Clients := Config Ans GoError Server Call Result

abbrev Client := Thread Ans GoError Call Result

abbrev Step := Action Call Outcome ℕ

def Provider.locks (p : Provider) : Machine Ans GoError Server Call Result Outcome ℕ where
  program := p.program
  exec := exec p
  env := fun s n => { s with clock := s.clock+n }

def Provider.holds (p : Provider) (s : Server) (key : String) (token : String) : Bool :=
  current (p.alive s.clock) s.table (p.storedKey key) token

def issuedFor (p : Provider) (s : Server) (key : String) (t : Client) : Bool :=
  match t.rest with
  | .ret (.acquired lease) => decide (lease.key = key) && p.holds s key lease.token
  | _ => false

def Exclusive (p : Provider) (c : Clients) : Prop :=
  ∀ key, c.threads.countP (issuedFor p c.shared key) ≤ 1

def Result.isSuccess : Result → Bool
  | .notAcquired => false
  | _ => true

-- nothing but the clock is read any more, and the call returns a success
def Succeeds (rest : M Result) : Prop :=
  Prog.Meets ⟨fun _ op => op = .now,fun _ _ => True⟩
    (fun _ r => ∃ a, r = .ok a ∧ a.isSuccess = true) [] rest

def Command.refusal : Command → M Result
  | .claim .. => .ret .notAcquired
  | .extend .. => .fail (coordinationError errConflict "lock renew rejected")
  | .drop .. => .fail (coordinationError errConflict "lock release rejected")

theorem not_succeeds_fail (e : GoError) : ¬ Succeeds (.fail e) := by
  rintro ⟨a,ha,_⟩
  cases ha

theorem succeeds_now {next : Time → M Result}
    (h : ∀ now, ∃ r, next now = .ret r ∧ r.isSuccess = true) : Succeeds (.call .now next) := by
  refine ⟨rfl,fun now _ => ?_⟩
  obtain ⟨r,hr,hsuccess⟩ := h now
  rw [hr]
  exact ⟨r,rfl,hsuccess⟩

theorem succeeds_iff {next : Answer → M Result} (hfalse : ¬ Succeeds (next (.rows false)))
    (htrue : Succeeds (next (.rows true))) (hfailed : ∀ e, ¬ Succeeds (next (.failed e)))
    (hunread : ∀ e, ¬ Succeeds (next (.unread e))) (ans : Answer) :
    Succeeds (next ans) ↔ ans = .rows true := by
  rcases ans with (_ | _) | e | e
  · simpa using hfalse
  · simpa using htrue
  · simpa using hfailed e
  · simpa using hunread e

theorem not_succeeds_notAcquired : ¬ Succeeds (.ret .notAcquired) := by
  rintro ⟨a,ha,hs⟩
  cases ha
  cases hs

def drew (token : Token) (tr : Trace) : Bool :=
  tr.any fun
    | ⟨.randomToken,t⟩ => decide (t = token)
    | _ => false

def drawnBy (token : Token) (t : Client) : Bool := drew token t.trace

def renewGranted (tr : Trace) : Bool :=
  tr.any fun
    | ⟨.run (.extend ..),.rows true⟩ => true
    | _ => false

def Call.Valid : Call → Prop
  | .acquire key ttl => trimSpace key ≠ "" ∧ 0 < ttl
  | .renew (some lease) ttl => 0 < ttl ∧ trimSpace lease.key ≠ "" ∧ trimSpace lease.token ≠ ""
  | .release (some lease) => trimSpace lease.key ≠ "" ∧ trimSpace lease.token ≠ ""
  | _ => False

-- the commands a call has sent to the server, with what each was answered
def statements (tr : Trace) : List (Command × Answer) :=
  tr.filterMap fun
    | ⟨.run cmd,ans⟩ => some (cmd,ans)
    | _ => none

def Granted : Call → Command → Except GoError Result → Prop
  | .acquire key _, .claim _ token _, .ok (.acquired lease) =>
      lease.key = trimSpace key ∧ lease.token = token
  | .renew (some lease) _, .extend .., .ok (.renewed given) =>
      given.key = lease.key ∧ given.token = lease.token
  | .release _, .drop .., .ok .released => True
  | _, _, _ => False

def Refused : Call → Except GoError Result → Prop
  | .acquire .., .ok .notAcquired => True
  | .renew .., .error e => GoError.wraps errConflict e = true
  | .release _, .error e => GoError.wraps errConflict e = true
  | _, _ => False

-- what a call returns once its command has been answered
def Decides (call : Call) (cmd : Command) (r : Except GoError Result) : Answer → Prop
  | .rows true => Granted call cmd r
  | .rows false => Refused call r
  | .failed _ | .unread _ => ∃ e, r = .error e ∧ GoError.wraps errRetryable e = true

-- a call that has returned sent one command, its own, and returns what that was answered; a call
-- with unusable arguments sent none
structure Answers (sends : Call → Command → Prop) (call : Call) (tr : Trace)
    (r : Except GoError Result) : Prop where
  decided : call.Valid → ∃ cmd ans, statements tr = [(cmd,ans)] ∧ sends call cmd ∧
    Decides call cmd r ans
  rejected : ¬ call.Valid → statements tr = [] ∧ ∃ e, r = .error e ∧
    GoError.wraps errInvalidArgument e = true

-- the call returns, whatever its remaining steps are answered
def Returns (sends : Call → Command → Prop) (t : Client) : Prop :=
  Prog.Meets ⟨fun _ _ => True,fun _ _ => True⟩ (Answers sends t.call) t.trace t.rest

theorem answers_decided {sends : Call → Command → Prop} {call : Call} {cmd : Command}
    {ans : Answer} {tr : Trace} {r : Except GoError Result} (hvalid : call.Valid)
    (hsends : sends call cmd) (htr : statements tr = [(cmd,ans)]) (h : Decides call cmd r ans) :
    Answers sends call tr r :=
  ⟨fun _ => ⟨cmd,ans,htr,hsends,h⟩,fun hinvalid => absurd hvalid hinvalid⟩

theorem answers_rejected {sends : Call → Command → Prop} {call : Call} (message : String)
    (hinvalid : ¬ call.Valid) :
    Answers sends call [] (.error (coordinationError errInvalidArgument message)) :=
  ⟨fun hvalid => absurd hvalid hinvalid,
    fun _ => ⟨rfl,_,rfl,wraps_coordinationError errInvalidArgument message⟩⟩

theorem wraps_join_coordinationError (kind e : GoError) (message : String) :
    GoError.wraps kind (.join (coordinationError kind message) e) = true := by
  rw [GoError.join,GoError.wraps,wraps_coordinationError]
  simp

def Ready (sends : Call → Command → Prop) (call : Call) (tr : Trace) : M Result → Prop
  | .ret r => Answers sends call tr (.ok r) ∧ match r with
      | .acquired lease => ∃ token, drew token tr = true ∧ lease.token = token.text
      | .renewed _ => renewGranted tr = true
      | _ => True
  | .fail e => Answers sends call tr (.error e)
  | .call (.run cmd) next => sends call cmd ∧ next (.rows false) = cmd.refusal ∧
      ∀ ans, Succeeds (next ans) ↔ ans = .rows true
  | .call _ _ => True

theorem ready_run {sends : Call → Command → Prop} {call : Call} {tr : Trace} {cmd : Command}
    {next : Answer → M Result} (hsends : sends call cmd) (hrefusal : next (.rows false) = cmd.refusal)
    (hsucceeds : ∀ ans, Succeeds (next ans) ↔ ans = .rows true) :
    Ready sends call tr (.call (.run cmd) next) := ⟨hsends,hrefusal,hsucceeds⟩

section Answered

variable {sends : Call → Command → Prop} {call : Call} {tr : Trace} {cmd : Command} {ans : Answer}

theorem ready_fail {e : GoError} (hvalid : call.Valid) (hsends : sends call cmd)
    (htr : statements tr = [(cmd,ans)]) (h : Decides call cmd (.error e) ans) :
    Prog.Always (Ready sends call) tr (.fail e) :=
  (Prog.always_fail ..).mpr (answers_decided hvalid hsends htr h)

theorem ready_retryable {e : GoError} (message : String) (hvalid : call.Valid)
    (hsends : sends call cmd) (htr : statements tr = [(cmd,ans)])
    (hans : ans = .failed e ∨ ans = .unread e) :
    Prog.Always (Ready sends call) tr
      (.fail (.join (coordinationError errRetryable message) e)) := by
  have hwraps := wraps_join_coordinationError errRetryable e message
  rcases hans with rfl | rfl
  · exact ready_fail hvalid hsends htr ⟨_,rfl,hwraps⟩
  · exact ready_fail hvalid hsends htr ⟨_,rfl,hwraps⟩

theorem ready_conflict (message : String) (hvalid : call.Valid) (hsends : sends call cmd)
    (htr : statements tr = [(cmd,.rows false)])
    (h : ∀ e, GoError.wraps errConflict e = true → Refused call (.error e)) :
    Prog.Always (Ready sends call) tr (.fail (coordinationError errConflict message)) :=
  ready_fail hvalid hsends htr (h _ (wraps_coordinationError errConflict message))

end Answered

def leaseOf : Call → Option LockLease
  | .acquire .. => none
  | .renew lease _ => lease
  | .release lease => lease

def Addresses (storedKey : String → String) : Call → Command → Prop
  | .acquire key ttl, .claim k _ _ => 0 < ttl ∧ k = storedKey key
  | .renew (some lease) ttl, .extend k token _ =>
      0 < ttl ∧ k = storedKey lease.key ∧ token = trimSpace lease.token
  | .release (some lease), .drop k token => k = storedKey lease.key ∧ token = trimSpace lease.token
  | _, _ => False

theorem addresses_acquire {storedKey : String → String} {key : String} {ttl : Duration}
    {cmd : Command} (h : Addresses storedKey (.acquire key ttl) cmd) :
    ∃ token arg, cmd = .claim (storedKey key) token arg := by
  cases cmd with
  | claim k token arg =>
    obtain ⟨_,rfl⟩ := h
    exact ⟨token,arg,rfl⟩
  | extend k token arg => exact h.elim
  | drop k token => exact h.elim

theorem addresses_renew {storedKey : String → String} {lease : LockLease} {ttl : Duration}
    {cmd : Command} (h : Addresses storedKey (.renew (some lease) ttl) cmd) :
    0 < ttl ∧ ∃ arg, cmd = .extend (storedKey lease.key) (trimSpace lease.token) arg := by
  cases cmd with
  | claim k token arg => exact h.elim
  | extend k token arg =>
    obtain ⟨hpos,rfl,rfl⟩ := h
    exact ⟨hpos,arg,rfl⟩
  | drop k token => exact h.elim

theorem addresses_lease {storedKey : String → String} {call : Call} {cmd : Command}
    {lease : LockLease} (h : Addresses storedKey call cmd) (hlease : leaseOf call = some lease) :
    (∃ arg, cmd = .extend (storedKey lease.key) (trimSpace lease.token) arg) ∨
    cmd = .drop (storedKey lease.key) (trimSpace lease.token) := by
  cases call with
  | acquire key ttl => cases hlease
  | renew given ttl =>
    cases hlease
    exact .inl (addresses_renew h).2
  | release given =>
    cases hlease
    cases cmd with
    | claim k token arg => exact h.elim
    | extend k token arg => exact h.elim
    | drop k token =>
      obtain ⟨rfl,rfl⟩ := h
      exact .inr rfl

section Exclusion

variable {p : Provider} {sends : Call → Command → Prop} {c c' : Clients} {a : Step}

structure Fresh (c : Clients) : Prop where
  once : ∀ token, c.threads.countP (drawnBy token) ≤ 1
  issued : ∀ t ∈ c.threads, ∀ token, drew token t.trace = true → token ∈ c.shared.issued

theorem drew_cons_of_ne {op : Op} {ans : Ans op} (hop : op ≠ .randomToken) (token : Token)
    (tr : Trace) : drew token (⟨op,ans⟩ :: tr) = drew token tr := by
  cases op with
  | now => rfl
  | randomToken => exact absurd rfl hop
  | run cmd => rfl

theorem drew_cons_token (token t : Token) (tr : Trace) :
    drew token (⟨.randomToken,t⟩ :: tr) = (decide (t = token) || drew token tr) := rfl

theorem exec_issued {s s' : Server} {op : Op} {o : Outcome} {ans : Ans op}
    (h : exec p s op o = some (ans,s')) (hop : op ≠ .randomToken) : s'.issued = s.issued := by
  cases op with
  | now =>
    simp only [exec,Option.some.injEq,Prod.mk.injEq] at h
    rw [← h.2]
  | randomToken => exact absurd rfl hop
  | run cmd =>
    cases o <;> simp only [exec,reply,Option.some.injEq,Prod.mk.injEq,reduceCtorEq] at h <;>
      rw [← h.2]

theorem Fresh.once_set {i : ℕ} {t t' : Client} {token : Token} (h : Fresh c)
    (ht : c.threads[i]? = some t) (hdrew : drawnBy token t' = drawnBy token t ∨
      c.threads.countP (drawnBy token) = 0) :
    (c.threads.set i t').countP (drawnBy token) ≤ 1 := by
  have hcount := Machine.countP_set_toNat (drawnBy token) t' ht
  have hone := h.once token
  rcases hdrew with hsame | hzero
  · rw [hsame] at hcount
    omega
  · have hbit := (drawnBy token t').toNat_le
    omega

theorem Fresh.undrawn {token : Token} (h : Fresh c) (hnew : token ∉ c.shared.issued) :
    c.threads.countP (drawnBy token) = 0 :=
  List.countP_eq_zero.mpr fun u hu hdrew => hnew (h.issued u hu token hdrew)

theorem fresh_exec {i : ℕ} {t : Client} {op : Op} {o : Outcome} {ans : Ans op} {s' : Server}
    {rest : M Result} (h : Fresh c) (ht : c.threads[i]? = some t)
    (hx : exec p c.shared op o = some (ans,s')) :
    Fresh ⟨s',c.threads.set i { t with rest := rest, trace := ⟨op,ans⟩ :: t.trace }⟩ := by
  have hmem := List.mem_of_getElem? ht
  by_cases hop : op = .randomToken
  · subst hop
    cases o with
    | token τ =>
      simp only [exec] at hx
      split_ifs at hx with hnew
      simp only [Option.some.injEq,Prod.mk.injEq] at hx
      obtain ⟨rfl,rfl⟩ := hx
      refine ⟨fun token => h.once_set ht ?_,?_⟩
      · by_cases heq : τ = token
        · exact .inr (h.undrawn (heq ▸ hnew))
        · exact .inl (by simp [drawnBy,drew_cons_token,heq])
      · refine Machine.forall_mem_set ?_ ?_
        · exact fun u hu token hdrew => List.mem_cons_of_mem _ (h.issued u hu token hdrew)
        · intro token hdrew
          simp only [drew_cons_token,Bool.or_eq_true,decide_eq_true_eq] at hdrew
          rcases hdrew with rfl | hdrew
          · exact List.mem_cons_self
          · exact List.mem_cons_of_mem _ (h.issued t hmem token hdrew)
    | done => simp [exec] at hx
    | lostRequest e => simp [exec] at hx
    | lostReply e => simp [exec] at hx
    | unread e => simp [exec] at hx
  · refine ⟨fun token => h.once_set ht (.inl (drew_cons_of_ne hop token _)),?_⟩
    rw [exec_issued hx hop]
    refine Machine.forall_mem_set h.issued ?_
    intro token hdrew
    rw [drew_cons_of_ne hop] at hdrew
    exact h.issued t hmem token hdrew

theorem fresh_step (h : Fresh c) (hs : p.locks.step c a = some c') : Fresh c' := by
  obtain ⟨call,rfl,rfl⟩ | ⟨i,x,t,op,k,ans,s',rfl,ht,hal,hrest,hx,rfl⟩ | ⟨i,t,rfl,ht,rfl⟩ |
    ⟨e,rfl,rfl⟩ := p.locks.step_cases hs
  · refine ⟨fun token => ?_,?_⟩
    · simpa [drawnBy,drew] using h.once token
    · intro t ht token hdrew
      rcases List.mem_append.mp ht with ht | ht
      · exact h.issued t ht token hdrew
      · simp [List.mem_singleton.mp ht,drew] at hdrew
  · exact fresh_exec h ht hx
  · refine ⟨fun token => h.once_set ht (.inl rfl),?_⟩
    exact Machine.forall_mem_set h.issued (h.issued t (List.mem_of_getElem? ht))
  · exact ⟨h.once,h.issued⟩

structure Tracked (p : Provider) (sends : Call → Command → Prop) (c : Clients) : Prop where
  ready : ∀ t ∈ c.threads, Prog.Always (Ready sends t.call) t.trace t.rest
  fresh : Fresh c

theorem tracked_init (s : Server) : Tracked p sends ⟨s,[]⟩ :=
  ⟨fun t ht => by simp at ht,fun _ => Nat.zero_le _,fun t ht => by simp at ht⟩

theorem tracked_step (hprog : ∀ call, Prog.Always (Ready sends call) [] (p.program call))
    (h : Tracked p sends c) (hs : p.locks.step c a = some c') : Tracked p sends c' :=
  ⟨p.locks.always_step hprog h.ready hs,fresh_step h.fresh hs⟩

theorem returns_of_tracked (h : Tracked p sends c) : ∀ t ∈ c.threads, Returns sends t :=
  fun t ht => (h.ready t ht).meets (fun _ _ h => h.1) (fun _ _ h => h)

theorem exclusive_of_tracked (h : Tracked p sends c) : Exclusive p c := by
  intro key
  rcases Nat.eq_zero_or_pos (c.threads.countP (issuedFor p c.shared key)) with hzero | hpos
  · omega
  · obtain ⟨t,ht,hissued⟩ := List.countP_pos_iff.mp hpos
    have hdrawn : ∀ u ∈ c.threads, issuedFor p c.shared key u = true →
        ∃ token : Token, drew token u.trace = true ∧ p.holds c.shared key token.text = true := by
      intro u hu hiss
      have hready := (h.ready u hu).now
      cases hrest : u.rest with
      | ret r =>
        cases r with
        | acquired lease =>
          simp only [issuedFor,hrest,Bool.and_eq_true,decide_eq_true_eq] at hiss
          rw [hrest] at hready
          obtain ⟨_,token,hdrew,htoken⟩ := hready
          exact ⟨token,hdrew,htoken ▸ hiss.2⟩
        | notAcquired => simp [issuedFor,hrest] at hiss
        | renewed lease => simp [issuedFor,hrest] at hiss
        | released => simp [issuedFor,hrest] at hiss
      | fail e => simp [issuedFor,hrest] at hiss
      | call op k => simp [issuedFor,hrest] at hiss
    obtain ⟨token,_,hholds⟩ := hdrawn t ht hissued
    refine Nat.le_trans (List.countP_mono_left ?_) (h.fresh.once token)
    intro u hu hiss
    obtain ⟨token',hdrew,hholds'⟩ := hdrawn u hu hiss
    have heq : token' = token := by
      have htext := current_unique hholds' hholds
      cases token'
      cases token
      simpa using htext
    rw [← heq]
    exact hdrew

-- a step in which a client's command meets the server
structure Performs (c : Clients) (a : Step) (c' : Clients) (t t' : Client) (cmd : Command)
    (o : Outcome) : Prop where
  now : c.next a = some (t,.run cmd,o)
  after : ∃ i, a = .exec i o ∧ c'.threads[i]? = some t'

theorem performs_done {t : Client} {cmd : Command} (h : c.next a = some (t,.run cmd,.done)) :
    ∃ c' t', p.locks.step c a = some c' ∧ Performs c a c' t t' cmd .done := by
  obtain ⟨i,rfl,ht,halive,k,hrest⟩ := Config.of_next h
  have hs := p.locks.step_exec ht halive hrest (x := .done) rfl
  have hi := (List.getElem?_eq_some_iff.mp ht).1
  exact ⟨_,_,hs,h,i,rfl,List.getElem?_set_self hi⟩

theorem reply_granted {s s' : Server} {r : Bool × Locks} {o : Outcome} {ans : Answer}
    (h : reply s r o = some (ans,s')) : ans = .rows true ↔ o = .done ∧ r.1 = true := by
  cases o <;> simp only [reply,Option.some.injEq,Prod.mk.injEq,reduceCtorEq] at h
  · rw [← h.1]
    simp
  · rw [← h.1]
    simp
  · rw [← h.1]
    simp
  · rw [← h.1]
    simp

theorem reply_refused {s s' : Server} {o : Outcome} {ans : Answer}
    (h : reply s (false,s.table) o = some (ans,s')) :
    s'.table = s.table ∧ (o = .done → ans = .rows false) := by
  cases o <;> simp only [reply,Option.some.injEq,Prod.mk.injEq,reduceCtorEq] at h <;>
    simp [← h.1,← h.2]

theorem reply_done {s s' : Server} {r : Bool × Locks} {ans : Answer}
    (h : reply s r .done = some (ans,s')) : s' = { s with table := r.2 } := by
  simp only [reply,Option.some.injEq,Prod.mk.injEq] at h
  exact h.2.symm

theorem performs_spec {t t' : Client} {cmd : Command} {o : Outcome} (h : Tracked p sends c)
    (hs : p.locks.step c a = some c') (hp : Performs c a c' t t' cmd o) :
    sends t.call cmd ∧ ∃ ans, reply c.shared (p.serve c.shared.clock c.shared.table cmd) o =
      some (ans,c'.shared) ∧ (ans = .rows false → t'.rest = cmd.refusal) ∧
      (Succeeds t'.rest ↔ o = .done ∧ (p.serve c.shared.clock c.shared.table cmd).1 = true) := by
  obtain ⟨i,rfl,hget⟩ := hp.after
  obtain ⟨_,hmem,hlt,k,ans,s',hrest,hx,rfl⟩ := p.locks.step_of_next hp.now hs
  have hready := (h.ready t hmem).now
  rw [hrest] at hready
  obtain ⟨hsends,hrefusal,hsucceeds⟩ := hready
  simp only [List.getElem?_set_self hlt,Option.some.injEq] at hget
  subst hget
  refine ⟨hsends,ans,hx,?_,?_⟩
  · rintro rfl
    exact hrefusal
  · exact (hsucceeds ans).trans (reply_granted hx)

end Exclusion

def tokenA : Token := ⟨"a1",by decide +kernel⟩

def leaseA : LockLease := ⟨"nightly",tokenA.text,second⟩

end Nimburion.Coordination
