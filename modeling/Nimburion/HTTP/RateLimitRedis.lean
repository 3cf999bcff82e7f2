import Nimburion.Lib.Interaction
import Nimburion.Lib.GoTime

namespace Nimburion.HTTP.RateLimitRedis
open Interaction GoTime

inductive Command where
  | incr (key : String)
  | expire (key : String) (seconds : Int)
  deriving DecidableEq, Repr

def Command.key : Command → String
  | .incr k => k
  | .expire k _ => k

-- a command beside the number of times the client may still send it again
structure Op where
  command : Command
  left : ℕ
  deriving DecidableEq, Repr

inductive Reply where
  | value (n : Int)
  | resent
  | failed
  deriving DecidableEq, Repr

abbrev Ans : Op → Type := fun _ => Reply

abbrev M := Prog Op Ans Empty

section Client

-- go-redis sends a command up to three more times when its reply is lost
def maxRetries : ℕ := 3

def send (command : Command) : ℕ → M (Option Int)
  | 0 => do
      let reply ← Prog.perform (⟨command,0⟩ : Op)
      match reply with
      | .value n => pure (some n)
      | _ => pure none
  | left+1 => do
      let reply ← Prog.perform (⟨command,left+1⟩ : Op)
      match reply with
      | .value n => pure (some n)
      | .resent => send command left
      | .failed => pure none

-- go-redis sends durations below one second as 1
def formatSec (d : Duration) : Int :=
  if 0 < d ∧ d < second then 1 else d.tdiv second

structure RedisRateLimiter where
  limit : Int64
  burst : Int64
  window : Duration
  namePrefix : String

variable (r : RedisRateLimiter)

def redisKey (key : String) : String :=
  if r.namePrefix = "" then key else r.namePrefix ++ ":" ++ key

def admits (count : Int) : Bool :=
  let limit := r.limit+r.burst
  limit = 0 || count ≤ limit.toInt

def allow (key : String) : M Bool := do
  let count ← send (.incr (redisKey r key)) maxRetries
  match count with
  | none => pure true
  | some count =>
      if count = 1 then do
        let _ ← send (.expire (redisKey r key) (formatSec r.window)) maxRetries
        pure (admits r count)
      else pure (admits r count)

end Client

section Server

structure Counter where
  count : Int
  deadline : Option Int
  deriving DecidableEq, Repr

structure Server where
  now : Int
  counters : String → Option Counter

def empty : Server := ⟨0,fun _ => none⟩

def put (s : Server) (key : String) (c : Option Counter) : Server :=
  { s with counters := fun k => if k = key then c else s.counters k }

def maxInt64 : Int := 9223372036854775807

def apply (s : Server) : Command → Reply × Server
  | .incr key => match s.counters key with
      | none => (.value 1,put s key (some ⟨1,none⟩))
      | some c =>
          if c.count = maxInt64 then (.failed,s)
          else (.value (c.count+1),put s key (some { c with count := c.count+1 }))
  | .expire key seconds => match s.counters key with
      | none => (.value 0,s)
      | some c =>
          if seconds ≤ 0 then (.value 1,put s key none)
          else (.value 1,put s key (some { c with deadline := some (s.now+seconds*1000) }))

-- milliseconds pass, and what is due goes
def tick (s : Server) (ms : ℕ) : Server where
  now := s.now+ms
  counters k := (s.counters k).filter fun c => match c.deadline with
    | some d => s.now+ms < d
    | none => true

inductive Fate where
  | answered
  | lost (again : Bool)
  | dropped (again : Bool)
  deriving DecidableEq, Repr

def unheard (again : Bool) : Reply := if again then .resent else .failed

def exec (s : Server) (op : Op) : Fate → Option (Reply × Server)
  | .answered => some (apply s op.command)
  | .lost again =>
      if again && op.left = 0 then none else some (unheard again,(apply s op.command).2)
  | .dropped again =>
      if again && op.left = 0 then none else some (unheard again,s)

def limiter (r : RedisRateLimiter) : Machine Ans Empty Server String Bool Fate ℕ :=
  ⟨allow r,exec,tick⟩

end Server

abbrev Calls := Config Ans Empty Server String Bool

abbrev Calling := Thread Ans Empty String Bool

abbrev Act := Action String Fate ℕ

def started : Calls := ⟨empty,[]⟩

section Discipline

variable (r : RedisRateLimiter)

-- the count a call was given
def counted : List (Event Ans) → Option Int
  | [] => none
  | ev :: tr => match ev.op.command,ev.ans with
      | .incr _,.value n => some n
      | _,_ => counted tr

def expireSent : List (Event Ans) → Prop
  | ⟨⟨.expire _ _,_⟩,reply⟩ :: _ => reply ≠ .resent
  | _ => False

def discipline (key : String) : Spec Ans where
  pre tr op := match op.command with
    | .incr k => k = redisKey r key ∧ counted tr = none
    | .expire k seconds => k = redisKey r key ∧ seconds = formatSec r.window ∧ counted tr = some 1
  ans op reply := reply = .resent → op.left ≠ 0

def Decided (tr : List (Event Ans)) : Except Empty Bool → Prop
  | .ok b => match counted tr with
      | none => b = true
      | some n => b = admits r n ∧ (n = 1 → expireSent tr)
  | .error _ => False

theorem meets_send_incr {key : String} {tr : List (Event Ans)} (left : ℕ)
    (htr : counted tr = none) :
    Prog.Meets (discipline r key) (fun tr' out => out = .ok (counted tr')) tr
      (send (.incr (redisKey r key)) left) := by
  induction left generalizing tr with
  | zero =>
    rw [send,Prog.meets_bind,Prog.meets_perform]
    refine ⟨⟨rfl,htr⟩,fun reply hreply => ?_⟩
    cases reply with
    | value n => rfl
    | resent => exact absurd rfl (hreply rfl)
    | failed => exact congrArg Except.ok htr.symm
  | succ left ih =>
    rw [send,Prog.meets_bind,Prog.meets_perform]
    refine ⟨⟨rfl,htr⟩,fun reply hreply => ?_⟩
    cases reply with
    | value n => rfl
    | resent => exact ih htr
    | failed => exact congrArg Except.ok htr.symm

theorem meets_send_expire {key : String} {tr : List (Event Ans)} (left : ℕ)
    (htr : counted tr = some 1) :
    Prog.Meets (discipline r key)
      (fun tr' out => counted tr' = some 1 ∧ expireSent tr' ∧ ∃ n, out = .ok n) tr
      (send (.expire (redisKey r key) (formatSec r.window)) left) := by
  induction left generalizing tr with
  | zero =>
    rw [send,Prog.meets_bind,Prog.meets_perform]
    refine ⟨⟨rfl,rfl,htr⟩,fun reply hreply => ?_⟩
    cases reply with
    | value n => exact ⟨htr,by simp [expireSent],_,rfl⟩
    | resent => exact absurd rfl (hreply rfl)
    | failed => exact ⟨htr,by simp [expireSent],_,rfl⟩
  | succ left ih =>
    rw [send,Prog.meets_bind,Prog.meets_perform]
    refine ⟨⟨rfl,rfl,htr⟩,fun reply hreply => ?_⟩
    cases reply with
    | value n => exact ⟨htr,by simp [expireSent],_,rfl⟩
    | resent => exact ih htr
    | failed => exact ⟨htr,by simp [expireSent],_,rfl⟩

theorem meets_allow (key : String) :
    Prog.Meets (discipline r key) (Decided r) [] (allow r key) := by
  rw [allow,Prog.meets_bind]
  refine Prog.meets_mono ?_ (meets_send_incr r maxRetries rfl)
  rintro tr out rfl
  cases hcount : counted tr with
  | none =>
    show Decided r tr (.ok true)
    rw [Decided,hcount]
  | some n =>
    dsimp only
    rw [Prog.meets_ite]
    refine ⟨?_,fun hn => ?_⟩
    · rintro rfl
      rw [Prog.meets_bind]
      refine Prog.meets_mono ?_ (meets_send_expire r maxRetries hcount)
      rintro tr' out ⟨hcount',hsent,n,rfl⟩
      show Decided r tr' (.ok _)
      rw [Decided,hcount']
      exact ⟨rfl,fun _ => hsent⟩
    · show Decided r tr (.ok _)
      rw [Decided,hcount]
      exact ⟨rfl,fun h => absurd h hn⟩

end Discipline

section Effects

variable {s s' : Server} {op : Op} {fate : Fate} {reply : Reply} {k : String}

@[simp] theorem put_self (s : Server) (k : String) (c : Option Counter) :
    (put s k c).counters k = c := by simp [put]

theorem put_other {key : String} (s : Server) (c : Option Counter) (h : key ≠ k) :
    (put s key c).counters k = s.counters k := by simp [put,Ne.symm h]

theorem apply_now (s : Server) (command : Command) : (apply s command).2.now = s.now := by
  cases command with
  | incr key =>
    simp only [apply]
    split
    · rfl
    · split_ifs <;> rfl
  | expire key seconds =>
    simp only [apply]
    split
    · rfl
    · split_ifs <;> rfl

theorem apply_other {command : Command} (h : command.key ≠ k) :
    (apply s command).2.counters k = s.counters k := by
  cases command with
  | incr key =>
    simp only [apply]
    split
    · exact put_other s _ h
    · split_ifs
      · rfl
      · exact put_other s _ h
  | expire key seconds =>
    simp only [apply]
    split
    · rfl
    · split_ifs
      · exact put_other s _ h
      · exact put_other s _ h

-- a command is carried out or it is not, whatever its caller learns
theorem exec_cases (h : exec s op fate = some (reply,s')) :
    (fate = .answered ∧ (reply,s') = apply s op.command) ∨
    (∃ again, fate = .lost again ∧ reply = unheard again ∧ (again = true → op.left ≠ 0) ∧
      s' = (apply s op.command).2) ∨
    (∃ again, fate = .dropped again ∧ reply = unheard again ∧ (again = true → op.left ≠ 0) ∧
      s' = s) := by
  cases fate with
  | answered => exact .inl ⟨rfl,(Option.some.inj h).symm⟩
  | lost again =>
    simp only [exec] at h
    split_ifs at h with hleft
    simp only [Option.some.injEq,Prod.mk.injEq] at h
    exact .inr (.inl ⟨again,rfl,h.1.symm,fun hagain hzero => hleft (by simp [hagain,hzero]),h.2.symm⟩)
  | dropped again =>
    simp only [exec] at h
    split_ifs at h with hleft
    simp only [Option.some.injEq,Prod.mk.injEq] at h
    exact .inr (.inr ⟨again,rfl,h.1.symm,fun hagain hzero => hleft (by simp [hagain,hzero]),h.2.symm⟩)

theorem exec_now (h : exec s op fate = some (reply,s')) : s'.now = s.now := by
  rcases exec_cases h with ⟨_,heq⟩ | ⟨_,_,_,_,rfl⟩ | ⟨_,_,_,_,rfl⟩
  · rw [show s' = (apply s op.command).2 from congrArg Prod.snd heq]
    exact apply_now s op.command
  · exact apply_now s op.command
  · rfl

theorem exec_other (hk : op.command.key ≠ k) (h : exec s op fate = some (reply,s')) :
    s'.counters k = s.counters k := by
  rcases exec_cases h with ⟨_,heq⟩ | ⟨_,_,_,_,rfl⟩ | ⟨_,_,_,_,rfl⟩
  · rw [show s' = (apply s op.command).2 from congrArg Prod.snd heq]
    exact apply_other hk
  · exact apply_other hk
  · rfl

theorem apply_replies (s : Server) (command : Command) : (apply s command).1 ≠ .resent := by
  cases command with
  | incr key =>
    simp only [apply]
    split
    · simp
    · split_ifs <;> simp
  | expire key seconds =>
    simp only [apply]
    split
    · simp
    · split_ifs <;> simp

theorem exec_reply (h : exec s op fate = some (reply,s')) : reply = .resent → op.left ≠ 0 := by
  rcases exec_cases h with ⟨_,heq⟩ | ⟨again,_,rfl,hleft,_⟩ | ⟨again,_,rfl,hleft,_⟩
  · intro hresent
    exact absurd ((congrArg Prod.fst heq).symm.trans hresent) (apply_replies s op.command)
  · cases again with
    | true => exact fun _ => hleft rfl
    | false => simp [unheard]
  · cases again with
    | true => exact fun _ => hleft rfl
    | false => simp [unheard]

end Effects

section Expiry

variable {r : RedisRateLimiter} {k : String} {c : Calls} {i : ℕ} {t : Calling} {op : Op}
  {next : Reply → M Bool} {fate : Fate} {reply : Reply} {s' : Server}

-- a live call whose next command sets the time to live of the key
def about (k : String) (t : Calling) : Bool :=
  t.alive && match t.rest with
    | .call ⟨.expire k' _,_⟩ _ => k' = k
    | _ => false

def unset (k : String) (s : Server) : Bool :=
  match s.counters k with
  | some ⟨_,none⟩ => true
  | _ => false

def othersAbout (k : String) (c : Calls) (i : ℕ) : Bool := (c.threads.eraseIdx i).any (about k)

-- no step leaves the key to a call that will not set its time to live
def keepsExpiry (k : String) (c : Calls) (a : Act) : Bool :=
  match a with
  | .crash i => match c.threads[i]? with
      | some t => !about k t || !unset k c.shared || othersAbout k c i
      | none => true
  | .exec i _ => match c.next a with
      | some (_,⟨.incr key,_⟩,.lost _) =>
          key ≠ k || (c.shared.counters k).isSome || othersAbout k c i
      | some (_,⟨.expire key _,_⟩,.dropped false) =>
          key ≠ k || !unset k c.shared || othersAbout k c i
      | _ => true
  | _ => true

def windowMs (r : RedisRateLimiter) : Int := formatSec r.window*1000

def Bounded (r : RedisRateLimiter) (k : String) (c : Calls) : Prop :=
  ∀ n deadline, c.shared.counters k = some ⟨n,deadline⟩ → match deadline with
    | some d => c.shared.now < d ∧ d ≤ c.shared.now+windowMs r
    | none => ∃ t ∈ c.threads, about k t = true

theorem about_of_meets {key : String} {rest : M Bool} {tr : List (Event Ans)}
    (h : Prog.Meets (discipline r key) (Decided r) tr rest) (hcount : counted tr = some 1)
    (hsent : ¬expireSent tr) : about (redisKey r key) ⟨key,rest,tr,true⟩ = true := by
  cases rest with
  | ret b =>
    have hdecided : Decided r tr (.ok b) := h
    rw [Decided,hcount] at hdecided
    exact absurd (hdecided.2 rfl) hsent
  | fail e => exact e.elim
  | call op next =>
    obtain ⟨command,left⟩ := op
    have hpre := h.1
    cases command with
    | incr key' =>
      have hnone := hpre.2
      rw [hcount] at hnone
      cases hnone
    | expire key' seconds => simpa [about] using hpre.1

theorem othersAbout_set {t' : Calling} (h : othersAbout k c i = true) :
    ∃ u ∈ c.threads.set i t', about k u = true := by
  obtain ⟨u,hu,habout⟩ := List.any_eq_true.mp h
  obtain ⟨j,hji,hj⟩ := List.mem_eraseIdx_iff_getElem?.mp hu
  exact ⟨u,List.mem_of_getElem? ((List.getElem?_set_ne (Ne.symm hji)).trans hj),habout⟩

theorem about_key (hrest : t.rest = .call op next) (h : about k t = true) :
    ∃ seconds, op.command = .expire k seconds := by
  obtain ⟨command,left⟩ := op
  cases command with
  | incr key => simp [about,hrest] at h
  | expire key seconds =>
    simp only [about,hrest,Bool.and_eq_true,decide_eq_true_eq] at h
    exact ⟨seconds,by rw [h.2]⟩

theorem unset_iff (s : Server) : unset k s = true ↔ ∃ n, s.counters k = some ⟨n,none⟩ := by
  unfold unset
  split
  · rename_i n hn
    exact iff_of_true rfl ⟨n,hn⟩
  · rename_i hnot
    exact iff_of_false (by simp) fun ⟨n,hn⟩ => hnot n hn

-- what each command leaves of the counter of its key
theorem apply_incr (s : Server) (k : String) :
    (s.counters k = none ∧ apply s (.incr k) = (.value 1,put s k (some ⟨1,none⟩))) ∨
    (∃ n deadline, s.counters k = some ⟨n,deadline⟩ ∧
      (apply s (.incr k) = (.failed,s) ∨
        apply s (.incr k) = (.value (n+1),put s k (some ⟨n+1,deadline⟩)))) := by
  cases hk : s.counters k with
  | none => exact .inl ⟨rfl,by simp [apply,hk]⟩
  | some counter =>
    obtain ⟨n,deadline⟩ := counter
    refine .inr ⟨n,deadline,rfl,?_⟩
    by_cases hmax : n = maxInt64
    · exact .inl (by simp [apply,hk,hmax])
    · exact .inr (by simp [apply,hk,hmax])

theorem apply_expire (s : Server) (k : String) {seconds : Int} (hpos : 0 < seconds) :
    (s.counters k = none ∧ (apply s (.expire k seconds)).2 = s) ∨
    (∃ n deadline, s.counters k = some ⟨n,deadline⟩ ∧
      (apply s (.expire k seconds)).2 = put s k (some ⟨n,some (s.now+seconds*1000)⟩)) := by
  cases hk : s.counters k with
  | none => exact .inl ⟨rfl,by simp [apply,hk]⟩
  | some counter =>
    obtain ⟨n,deadline⟩ := counter
    exact .inr ⟨n,deadline,rfl,by simp [apply,hk,Int.not_le.mpr hpos]⟩

theorem pre_key {key : String} {tr : List (Event Ans)} (h : (discipline r key).pre tr op) :
    op.command.key = redisKey r key := by
  obtain ⟨command,left⟩ := op
  cases command with
  | incr key' => exact h.1
  | expire key' seconds => exact h.1

variable {t' : Calling}

theorem Bounded.same (h : Bounded r k c) (ht : c.threads[i]? = some t)
    (habout : about k t = true → about k t' = true) (hnow : s'.now = c.shared.now)
    (hk : s'.counters k = c.shared.counters k) : Bounded r k ⟨s',c.threads.set i t'⟩ := by
  intro n deadline hn
  have hold := h n deadline (hk ▸ hn)
  cases deadline with
  | some d => simpa [hnow] using hold
  | none => exact Machine.exists_mem_set ht habout hold

theorem Bounded.incr (h : Bounded r k c) (ht : c.threads[i]? = some t)
    (hnot : about k t = false)
    (hcover : c.shared.counters k = none → ∃ u ∈ c.threads.set i t', about k u = true) :
    Bounded r k ⟨(apply c.shared (.incr k)).2,c.threads.set i t'⟩ := by
  have hsame : Bounded r k ⟨c.shared,c.threads.set i t'⟩ :=
    h.same ht (fun habout => absurd habout (by simp [hnot])) rfl rfl
  rcases apply_incr c.shared k with ⟨hnone,heq⟩ | ⟨n,deadline,hn,heq | heq⟩
  · rw [heq]
    intro n deadline hn
    rw [put_self,Option.some.injEq,Counter.mk.injEq] at hn
    obtain ⟨rfl,rfl⟩ := hn
    exact hcover hnone
  · rw [heq]
    exact hsame
  · rw [heq]
    intro n' deadline' hn'
    rw [put_self,Option.some.injEq,Counter.mk.injEq] at hn'
    obtain ⟨rfl,rfl⟩ := hn'
    exact hsame n deadline hn

theorem Bounded.expire (hpos : 0 < formatSec r.window) :
    Bounded r k ⟨(apply c.shared (.expire k (formatSec r.window))).2,c.threads.set i t'⟩ := by
  intro n deadline hn
  rcases apply_expire c.shared k hpos with ⟨hnone,heq⟩ | ⟨n',deadline',_,heq⟩
  · rw [heq,hnone] at hn
    cases hn
  · rw [heq] at hn ⊢
    rw [put_self,Option.some.injEq,Counter.mk.injEq] at hn
    obtain ⟨rfl,rfl⟩ := hn
    refine ⟨?_,Int.le_refl _⟩
    simp only [put]
    omega

theorem Bounded.kept (h : Bounded r k c)
    (hcover : unset k c.shared = true → ∃ u ∈ c.threads.set i t', about k u = true) :
    Bounded r k { c with threads := c.threads.set i t' } := by
  intro n deadline hn
  cases deadline with
  | some d => exact h n (some d) hn
  | none => exact hcover ((unset_iff c.shared).mpr ⟨n,hn⟩)

theorem Bounded.exec (hpos : 0 < formatSec r.window) (h : Bounded r k c)
    (ht : c.threads[i]? = some t) (hal : t.alive = true) (hrest : t.rest = .call op next)
    (hpre : (discipline r t.call).pre t.trace op)
    (hnext : Prog.Meets (discipline r t.call) (Decided r) (⟨op,reply⟩ :: t.trace) (next reply))
    (hx : RateLimitRedis.exec c.shared op fate = some (reply,s'))
    (hP : keepsExpiry k c (.exec i fate) = true) :
    Bounded r k ⟨s',c.threads.set i { t with rest := next reply, trace := ⟨op,reply⟩ :: t.trace }⟩ := by
  have hi := (List.getElem?_eq_some_iff.mp ht).1
  by_cases hkey : op.command.key = k
  swap
  · refine h.same ht (fun habout => ?_) (exec_now hx) (exec_other hkey hx)
    obtain ⟨seconds,hop⟩ := about_key hrest habout
    exact absurd (by rw [hop]; rfl) hkey
  obtain ⟨command,left⟩ := op
  simp only [keepsExpiry,Config.next_exec ht hal hrest] at hP
  -- the call itself is about to send EXPIRE after this step
  have hself : counted (⟨⟨command,left⟩,reply⟩ :: t.trace) = some 1 →
      ¬expireSent (⟨⟨command,left⟩,reply⟩ :: t.trace) →
      ∃ u ∈ c.threads.set i { t with
        rest := next reply, trace := ⟨⟨command,left⟩,reply⟩ :: t.trace }, about k u = true := by
    intro hcount hsent
    refine ⟨_,List.mem_set hi _,?_⟩
    have habout := about_of_meets hnext hcount hsent
    rw [← pre_key hpre,hkey] at habout
    simpa [about,hal] using habout
  cases command with
  | incr key =>
    obtain rfl : key = k := hkey
    have hnot : about key t = false := by simp [about,hrest]
    rcases exec_cases hx with ⟨rfl,heq⟩ | ⟨again,rfl,rfl,_,rfl⟩ | ⟨again,rfl,rfl,_,rfl⟩
    · obtain rfl : s' = _ := congrArg Prod.snd heq
      refine h.incr ht hnot fun hnone => hself ?_ (by simp [expireSent])
      have hreply : reply = .value 1 := (congrArg Prod.fst heq).trans (by simp [apply,hnone])
      simp [counted,hreply]
    · refine h.incr ht hnot fun hnone => othersAbout_set ?_
      simpa [hnone] using hP
    · exact h.same ht (fun habout => absurd habout (by simp [hnot])) rfl rfl
  | expire key seconds =>
    obtain rfl : key = k := hkey
    obtain ⟨_,rfl,hcount⟩ := hpre
    rcases exec_cases hx with ⟨rfl,heq⟩ | ⟨again,rfl,rfl,_,rfl⟩ | ⟨again,rfl,rfl,_,rfl⟩
    · obtain rfl : s' = _ := congrArg Prod.snd heq
      exact Bounded.expire hpos
    · exact Bounded.expire hpos
    · refine h.kept fun hunset => ?_
      cases again with
      | true => exact hself hcount (by simp [expireSent,unheard])
      | false =>
        refine othersAbout_set ?_
        simpa [hunset] using hP

theorem Bounded.crash (h : Bounded r k c) (ht : c.threads[i]? = some t)
    (hP : keepsExpiry k c (.crash i) = true) :
    Bounded r k { c with threads := c.threads.set i { t with alive := false } } := by
  refine h.kept fun hunset => ?_
  simp only [keepsExpiry,ht,hunset,Bool.not_true,Bool.or_false,Bool.or_eq_true,
    Bool.not_eq_true'] at hP
  rcases hP with hnot | hothers
  · obtain ⟨n,hn⟩ := (unset_iff c.shared).mp hunset
    exact Machine.exists_mem_set ht (fun habout => absurd habout (by simp [hnot])) (h n none hn)
  · exact othersAbout_set hothers

theorem tick_counter {s : Server} {ms : ℕ} {n : Int} {deadline : Option Int}
    (h : (tick s ms).counters k = some ⟨n,deadline⟩) :
    s.counters k = some ⟨n,deadline⟩ ∧ ∀ d, deadline = some d → s.now+ms < d := by
  simp only [tick,Option.filter_eq_some_iff] at h
  refine ⟨h.1,?_⟩
  rintro d rfl
  simpa using h.2

theorem Bounded.tick (h : Bounded r k c) (ms : ℕ) :
    Bounded r k { c with shared := tick c.shared ms } := by
  intro n deadline hn
  obtain ⟨hn,hlive⟩ := tick_counter hn
  have hold := h n deadline hn
  cases deadline with
  | some d =>
    refine ⟨hlive d rfl,Int.le_trans hold.2 ?_⟩
    simp only [RateLimitRedis.tick]
    omega
  | none => exact hold

def Following (r : RedisRateLimiter) (c : Calls) : Prop :=
  Machine.ThreadsMeet (fun key => discipline r key) (fun _ => Decided r) c

theorem following_step {a : Act} {c' : Calls} (h : Following r c)
    (hs : (limiter r).step c a = some c') : Following r c' :=
  h.step (m := limiter r) (meets_allow r) (fun _ _ _ _ _ _ hx => exec_reply hx) hs

theorem following_started : Following r started := by simp [Following,started,Machine.ThreadsMeet]

theorem bounded_step {a : Act} {c' : Calls} (hpos : 0 < formatSec r.window) (h : Bounded r k c)
    (hm : Following r c) (hP : keepsExpiry k c a = true) (hs : (limiter r).step c a = some c') :
    Bounded r k c' := by
  have hm' := following_step hm hs
  obtain ⟨call,rfl,rfl⟩ | ⟨i,x,t,op,next,reply,s',rfl,ht,hal,hrest,hx,rfl⟩ | ⟨i,t,rfl,ht,rfl⟩ |
    ⟨ms,rfl,rfl⟩ := (limiter r).step_cases hs
  · intro n deadline hn
    have hold := h n deadline hn
    cases deadline with
    | some d => exact hold
    | none =>
      obtain ⟨u,hu,habout⟩ := hold
      exact ⟨u,List.mem_append_left _ hu,habout⟩
  · have hmeet := hm t (List.mem_of_getElem? ht)
    rw [hrest,Prog.meets_call] at hmeet
    have hnext := hm' _ (List.mem_set (List.getElem?_eq_some_iff.mp ht).1 _)
    exact h.exec hpos ht hal hrest hmeet.1 hnext hx hP
  · exact h.crash ht hP
  · exact h.tick ms

theorem bounded_run {acts : List Act} {c' : Calls} (hpos : 0 < formatSec r.window)
    (hP : (limiter r).Along (fun c a => keepsExpiry k c a = true) acts started)
    (hrun : (limiter r).run acts started = some c') : Bounded r k c' ∧ Following r c' := by
  refine (limiter r).run_invariant (I := fun c => Bounded r k c ∧ Following r c) ?_
    ⟨by simp [Bounded,started,empty],following_started⟩ hP hrun
  rintro c a c' ⟨hbounded,hfollowing⟩ hPa hs
  exact ⟨bounded_step hpos hbounded hfollowing hPa hs,following_step hfollowing hs⟩

end Expiry

end Nimburion.HTTP.RateLimitRedis
