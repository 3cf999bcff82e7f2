import Nimburion.Lib.InteractionTrace
import Nimburion.HTTP.RateLimitRedis
import Mathlib.Data.Finset.Card
import Mathlib.Data.Finset.Range

namespace Nimburion.HTTP.RateLimitRedis
open Interaction GoTime

section Readmission

variable {r : RedisRateLimiter} {k : String} {c c' : Calls} {a : Act}

-- no call for the key is in progress
def Idle (r : RedisRateLimiter) (k : String) (c : Calls) : Prop :=
  ∀ t ∈ c.threads, redisKey r t.call = k → t.alive = false ∨ ∃ b, t.rest = .ret b

theorem Idle.not_about (h : Idle r k c) (hm : Following r c) {t : Calling} (ht : t ∈ c.threads) :
    about k t = false := by
  by_contra habout
  rw [Bool.not_eq_false] at habout
  have halive : t.alive = true := by
    simp only [about,Bool.and_eq_true] at habout
    exact habout.1
  cases hrest : t.rest with
  | ret b => simp [about,hrest] at habout
  | fail e => exact e.elim
  | call op next =>
    have hmeet := hm t ht
    rw [hrest,Prog.meets_call] at hmeet
    obtain ⟨seconds,hop⟩ := about_key hrest habout
    have hkey := pre_key hmeet.1
    rw [hop] at hkey
    rcases h t ht hkey.symm with hdead | ⟨b,hret⟩
    · rw [halive] at hdead
      cases hdead
    · rw [hrest] at hret
      cases hret

def Limited (k : String) (bound : Int) (s : Server) : Prop :=
  ∀ n deadline, s.counters k = some ⟨n,deadline⟩ →
    ∃ d, deadline = some d ∧ s.now < d ∧ d ≤ bound

theorem Bounded.limited (h : Bounded r k c) (hm : Following r c) (hidle : Idle r k c) :
    Limited k (c.shared.now+windowMs r) c.shared := by
  intro n deadline hn
  have hold := h n deadline hn
  cases deadline with
  | some d => exact ⟨d,rfl,hold⟩
  | none =>
    obtain ⟨t,ht,habout⟩ := hold
    rw [hidle.not_about hm ht] at habout
    cases habout

-- no call for the key starts
def sendsNone (r : RedisRateLimiter) (k : String) : Act → Bool
  | .start key => redisKey r key ≠ k
  | _ => true

theorem Idle.step (h : Idle r k c) (hP : sendsNone r k a = true)
    (hs : (limiter r).step c a = some c') : Idle r k c' := by
  obtain ⟨call,rfl,rfl⟩ | ⟨i,x,t,op,next,reply,s',rfl,ht,hal,hrest,hx,rfl⟩ | ⟨i,t,rfl,ht,rfl⟩ |
    ⟨ms,rfl,rfl⟩ := (limiter r).step_cases hs
  · intro t ht hkey
    rcases List.mem_append.mp ht with ht | ht
    · exact h t ht hkey
    · rw [List.mem_singleton.mp ht] at hkey
      simp [sendsNone,hkey] at hP
  · refine Machine.forall_mem_set h fun hkey => ?_
    rcases h t (List.mem_of_getElem? ht) hkey with hdead | ⟨b,hret⟩
    · exact .inl hdead
    · rw [hrest] at hret
      cases hret
  · exact Machine.forall_mem_set h fun _ => .inl rfl
  · exact h

theorem Limited.step {bound : Int} (h : Limited k bound c.shared) (hidle : Idle r k c)
    (hm : Following r c) (hs : (limiter r).step c a = some c') : Limited k bound c'.shared := by
  obtain ⟨call,rfl,rfl⟩ | ⟨i,x,t,op,next,reply,s',rfl,ht,hal,hrest,hx,rfl⟩ | ⟨i,t,rfl,ht,rfl⟩ |
    ⟨ms,rfl,rfl⟩ := (limiter r).step_cases hs
  · exact h
  · have hmeet := hm t (List.mem_of_getElem? ht)
    rw [hrest,Prog.meets_call] at hmeet
    have hother : op.command.key ≠ k := by
      intro hkey
      rcases hidle t (List.mem_of_getElem? ht) ((pre_key hmeet.1).symm.trans hkey) with
        hdead | ⟨b,hret⟩
      · rw [hal] at hdead
        cases hdead
      · rw [hrest] at hret
        cases hret
    intro n deadline hn
    rw [exec_now hx]
    exact h n deadline ((exec_other hother hx).symm.trans hn)
  · exact h
  · intro n deadline hn
    obtain ⟨hn,hlive⟩ := tick_counter hn
    obtain ⟨d,rfl,_,hle⟩ := h n deadline hn
    exact ⟨d,rfl,hlive d rfl,hle⟩

-- once the window has passed the key is gone
theorem forgotten {more : List Act} {bound : Int} (h : Limited k bound c.shared)
    (hidle : Idle r k c) (hm : Following r c)
    (hP : (limiter r).Along (fun _ a => sendsNone r k a = true) more c)
    (hrun : (limiter r).run more c = some c') (hpast : bound ≤ c'.shared.now) :
    c'.shared.counters k = none := by
  have hall : Limited k bound c'.shared ∧ Idle r k c' ∧ Following r c' := by
    refine (limiter r).run_invariant
      (I := fun c => Limited k bound c.shared ∧ Idle r k c ∧ Following r c) ?_ ⟨h,hidle,hm⟩ hP hrun
    rintro c a c' ⟨hlimited,hidle,hm⟩ hPa hs
    exact ⟨hlimited.step hidle hm hs,hidle.step hPa hs,following_step hm hs⟩
  cases hk : c'.shared.counters k with
  | none => rfl
  | some counter =>
    obtain ⟨d,_,hlive,hle⟩ := hall.1 counter.count counter.deadline hk
    omega

def serve (s : Server) (op : Op) : Reply × Server := apply s op.command

theorem first_admitted {s : Server} {key : String} (h : s.counters (redisKey r key) = none)
    (hone : admits r 1 = true) : (Prog.eval serve (allow r key) s).1 = .ok true := by
  rw [allow,Prog.eval_bind]
  have hincr : Prog.eval serve (send (.incr (redisKey r key)) maxRetries) s =
      (.ok (some 1),put s (redisKey r key) (some ⟨1,none⟩)) := by
    simp [send,maxRetries,serve,apply,h]
  rw [hincr]
  simp only [if_true]
  rw [Prog.eval_bind]
  by_cases hpos : formatSec r.window ≤ 0
  · simp [send,maxRetries,serve,apply,hpos,hone]
  · simp [send,maxRetries,serve,apply,hpos,hone]

end Readmission

section Window

variable {r : RedisRateLimiter} {k : String} {c₁ c c' : Calls} {a : Act}

def countOf (k : String) (s : Server) : Int :=
  match s.counters k with
  | some counter => counter.count
  | none => 0

theorem apply_incr_count (s : Server) :
    countOf k s ≤ countOf k (apply s (.incr k)).2 ∧
    ∀ n, (apply s (.incr k)).1 = .value n →
      n = countOf k s+1 ∧ countOf k (apply s (.incr k)).2 = n := by
  rcases apply_incr s k with ⟨hnone,heq⟩ | ⟨m,deadline,hm,heq | heq⟩
  · rw [heq]
    simp [countOf,hnone,put]
  · rw [heq]
    simp
  · have hgrows : m ≤ m+1 := by omega
    have hafter : countOf k (put s k (some ⟨m+1,deadline⟩)) = m+1 := by simp [countOf,put]
    have hbefore : countOf k s = m := by simp [countOf,hm]
    rw [heq,hbefore,hafter]
    refine ⟨hgrows,fun n hn => ?_⟩
    cases hn
    exact ⟨rfl,rfl⟩

theorem apply_expire_count {s : Server} {seconds : Int} (hpos : 0 < seconds) :
    countOf k (apply s (.expire k seconds)).2 = countOf k s := by
  rcases apply_expire s k hpos with ⟨_,heq⟩ | ⟨m,deadline,hm,heq⟩
  · rw [heq]
  · rw [heq]
    simp [countOf,hm]

-- the key does not expire in this step
def survives (k : String) (c : Calls) : Act → Bool
  | .env ms => (c.shared.counters k).isNone || ((tick c.shared ms).counters k).isSome
  | _ => true

theorem exec_count {s s' : Server} {op : Op} {fate : Fate} {reply : Reply}
    (hop : ∀ key seconds, op.command = .expire key seconds → 0 < seconds)
    (hx : exec s op fate = some (reply,s')) : countOf k s ≤ countOf k s' := by
  have happly : countOf k s ≤ countOf k (apply s op.command).2 := by
    by_cases hkey : op.command.key = k
    · cases hcommand : op.command with
      | incr key =>
        rw [hcommand] at hkey
        obtain rfl : key = k := hkey
        exact (apply_incr_count _).1
      | expire key seconds =>
        rw [hcommand] at hkey
        obtain rfl : key = k := hkey
        rw [apply_expire_count (hop key seconds hcommand)]
    · rw [countOf,countOf,apply_other hkey]
  rcases exec_cases hx with ⟨_,heq⟩ | ⟨_,_,_,_,rfl⟩ | ⟨_,_,_,_,rfl⟩
  · rw [show s' = (apply s op.command).2 from congrArg Prod.snd heq]
    exact happly
  · exact happly
  · exact Int.le_refl _

theorem expire_pos (hpos : 0 < formatSec r.window) {key : String} {tr : List (Event Ans)} {op : Op}
    (hpre : (discipline r key).pre tr op) (key' : String) (seconds : Int)
    (hop : op.command = .expire key' seconds) : 0 < seconds := by
  obtain ⟨command,left⟩ := op
  obtain rfl : command = .expire key' seconds := hop
  obtain ⟨_,rfl,_⟩ := hpre
  exact hpos

theorem tick_count (s : Server) (ms : ℕ) : countOf k (tick s ms) = countOf k s ∨
    (countOf k (tick s ms) = 0 ∧ (tick s ms).counters k = none) := by
  cases hk : (tick s ms).counters k with
  | none => exact .inr ⟨by simp [countOf,hk],rfl⟩
  | some counter => exact .inl (by simp [countOf,hk,(tick_counter hk).1])

theorem nonneg_step (hpos : 0 < formatSec r.window) (hm : Following r c)
    (h : 0 ≤ countOf k c.shared) (hs : (limiter r).step c a = some c') :
    0 ≤ countOf k c'.shared := by
  obtain ⟨call,rfl,rfl⟩ | ⟨i,x,t,op,next,reply,s',rfl,ht,hal,hrest,hx,rfl⟩ | ⟨i,t,rfl,ht,rfl⟩ |
    ⟨ms,rfl,rfl⟩ := (limiter r).step_cases hs
  · exact h
  · have hmeet := hm t (List.mem_of_getElem? ht)
    rw [hrest,Prog.meets_call] at hmeet
    exact Int.le_trans h (exec_count (expire_pos hpos hmeet.1) hx)
  · exact h
  · show 0 ≤ countOf k (tick c.shared ms)
    rcases tick_count (k := k) c.shared ms with hsame | ⟨hzero,_⟩
    · exact hsame ▸ h
    · exact hzero ▸ Int.le_refl 0

theorem count_step (hpos : 0 < formatSec r.window) (hm : Following r c) (hP : survives k c a = true)
    (hs : (limiter r).step c a = some c') : countOf k c.shared ≤ countOf k c'.shared := by
  obtain ⟨call,rfl,rfl⟩ | ⟨i,x,t,op,next,reply,s',rfl,ht,hal,hrest,hx,rfl⟩ | ⟨i,t,rfl,ht,rfl⟩ |
    ⟨ms,rfl,rfl⟩ := (limiter r).step_cases hs
  · exact Int.le_refl _
  · have hmeet := hm t (List.mem_of_getElem? ht)
    rw [hrest,Prog.meets_call] at hmeet
    exact exec_count (expire_pos hpos hmeet.1) hx
  · exact Int.le_refl _
  · show countOf k c.shared ≤ countOf k (tick c.shared ms)
    rcases tick_count (k := k) c.shared ms with hsame | ⟨hzero,hnone⟩
    · exact Int.le_of_eq hsame.symm
    · simp only [survives,hnone,Option.isSome_none,Bool.or_false,Option.isNone_iff_eq_none] at hP
      rw [hzero,countOf,hP]

-- the call had no count when the segment began
def uncounted (c₁ : Calls) (i : ℕ) : Bool :=
  match c₁.threads[i]? with
  | some t => (counted t.trace).isNone
  | none => true

def granted (r : RedisRateLimiter) (k : String) (t : Calling) : Bool :=
  redisKey r t.call = k && match counted t.trace with
    | some n => admits r n
    | none => false

def returnedTrue (r : RedisRateLimiter) (k : String) (t : Calling) : Bool :=
  redisKey r t.call = k && (counted t.trace).isSome && match t.rest with
    | .ret b => b
    | _ => false

-- the calls that got their count from c₁ on
def since (q : Calling → Bool) (c₁ c : Calls) : Finset ℕ :=
  (Finset.range c.threads.length).filter fun i => uncounted c₁ i && (c.threads[i]?).any q

theorem mem_since {q : Calling → Bool} {i : ℕ} : i ∈ since q c₁ c ↔
    uncounted c₁ i = true ∧ ∃ t, c.threads[i]? = some t ∧ q t = true := by
  simp only [since,Finset.mem_filter,Finset.mem_range,Bool.and_eq_true,Option.any_eq_true]
  constructor
  · rintro ⟨_,hnone,t,ht,hq⟩
    exact ⟨hnone,t,ht,hq⟩
  · rintro ⟨hnone,t,ht,hq⟩
    exact ⟨(List.getElem?_eq_some_iff.mp ht).1,hnone,t,ht,hq⟩

variable (c₁) in
theorem since_returned (hm : Following r c) :
    since (returnedTrue r k) c₁ c ⊆ since (granted r k) c₁ c := by
  intro i hi
  obtain ⟨hnone,t,ht,hreturned⟩ := mem_since.mp hi
  refine mem_since.mpr ⟨hnone,t,ht,?_⟩
  have hmeet := hm t (List.mem_of_getElem? ht)
  simp only [returnedTrue,Bool.and_eq_true,decide_eq_true_eq] at hreturned
  obtain ⟨⟨hkey,hsome⟩,htrue⟩ := hreturned
  obtain ⟨n,hn⟩ := Option.isSome_iff_exists.mp hsome
  cases hrest : t.rest with
  | ret b =>
    rw [hrest] at hmeet htrue
    have hdecided : Decided r t.trace (.ok b) := hmeet
    rw [Decided,hn] at hdecided
    simp only at htrue
    simp [granted,hkey,hn,← hdecided.1,htrue]
  | fail e => exact e.elim
  | call op next => simp [hrest] at htrue

structure Counted (r : RedisRateLimiter) (k : String) (c₁ c : Calls) : Prop where
  below : ((since (granted r k) c₁ c).card : Int) ≤ countOf k c.shared
  within : ((since (granted r k) c₁ c).card : Int) ≤ r.limit.toInt+r.burst.toInt

theorem admits_le (hlimit : 1 ≤ r.limit.toInt+r.burst.toInt) {n : Int} (h : admits r n = true) :
    n ≤ r.limit.toInt+r.burst.toInt := by
  have hsum := Int64.toInt_add r.limit r.burst
  have hl := Int64.toInt_lt r.limit
  have hb := Int64.toInt_lt r.burst
  rw [Int.bmod_def] at hsum
  simp only [admits,Bool.or_eq_true,decide_eq_true_eq] at h
  rcases h with hzero | hle
  · rw [hzero,Int64.toInt_zero] at hsum
    split_ifs at hsum <;> omega
  · split_ifs at hsum <;> omega

theorem granted_step {i : ℕ} (hm : Following r c) (hs : (limiter r).step c a = some c')
    (hi : i ∈ since (granted r k) c₁ c') (hnot : i ∉ since (granted r k) c₁ c) :
    ∃ x left n, a = .exec i x ∧ exec c.shared ⟨.incr k,left⟩ x = some (.value n,c'.shared) ∧
      admits r n = true := by
  obtain ⟨hnone,t',ht',hgranted⟩ := mem_since.mp hi
  rcases (limiter r).step_trace hs ht' with hnil | ⟨t,ht,hcall,hsame | ⟨x,op,reply,next,rfl,hrest,hx,hcons⟩⟩
  · simp [granted,hnil,counted] at hgranted
  · refine absurd (mem_since.mpr ⟨hnone,t,ht,?_⟩) hnot
    rwa [granted,hcall,← hsame]
  · have hmeet := hm t (List.mem_of_getElem? ht)
    rw [hrest,Prog.meets_call] at hmeet
    obtain ⟨command,left⟩ := op
    -- only an answered INCR changes the count of a call
    have hold : counted t'.trace = counted t.trace → False := by
      intro hcount
      refine hnot (mem_since.mpr ⟨hnone,t,ht,?_⟩)
      rwa [granted,hcall,← hcount]
    cases command with
    | expire key seconds => exact absurd (congrArg counted hcons) hold
    | incr key =>
      cases reply with
      | resent => exact absurd (congrArg counted hcons) hold
      | failed => exact absurd (congrArg counted hcons) hold
      | value n =>
        simp only [granted,hcons,counted,Bool.and_eq_true,decide_eq_true_eq] at hgranted
        obtain rfl : key = k := hmeet.1.1.trans (by rw [hcall,hgranted.1])
        exact ⟨x,left,n,rfl,hx,hgranted.2⟩

theorem exec_value {s s' : Server} {left : ℕ} {fate : Fate} {n : Int}
    (hx : exec s ⟨.incr k,left⟩ fate = some (.value n,s')) :
    n = countOf k s+1 ∧ countOf k s' = n := by
  rcases exec_cases hx with ⟨_,heq⟩ | ⟨again,_,hreply,_⟩ | ⟨again,_,hreply,_⟩
  · obtain rfl : s' = _ := congrArg Prod.snd heq
    exact (apply_incr_count _).2 n (congrArg Prod.fst heq).symm
  · cases again <;> simp [unheard] at hreply
  · cases again <;> simp [unheard] at hreply

theorem Counted.step (hpos : 0 < formatSec r.window)
    (hlimit : 1 ≤ r.limit.toInt+r.burst.toInt) (h : Counted r k c₁ c) (hm : Following r c)
    (hP : survives k c a = true) (hs : (limiter r).step c a = some c') : Counted r k c₁ c' := by
  have hmono := count_step hpos hm hP hs
  by_cases hsub : since (granted r k) c₁ c' ⊆ since (granted r k) c₁ c
  · have hcard := Int.ofNat_le.mpr (Finset.card_le_card hsub)
    have hbelow := h.below
    have hwithin := h.within
    exact ⟨by omega,by omega⟩
  · obtain ⟨i,hi,hnot⟩ := Finset.not_subset.mp hsub
    obtain ⟨x,left,n,rfl,hx,hadmits⟩ := granted_step hm hs hi hnot
    obtain ⟨hn,hcount⟩ := exec_value hx
    have hinsert : since (granted r k) c₁ c' ⊆ insert i (since (granted r k) c₁ c) := by
      intro j hj
      by_cases hmem : j ∈ since (granted r k) c₁ c
      · exact Finset.mem_insert_of_mem hmem
      · obtain ⟨_,_,_,hact,_⟩ := granted_step hm hs hj hmem
        cases hact
        exact Finset.mem_insert_self _ _
    have hcard := (Finset.card_le_card hinsert).trans (Finset.card_insert_le _ _)
    have hle := admits_le hlimit hadmits
    have hbelow := h.below
    exact ⟨by omega,by omega⟩

theorem counted_run {more : List Act} (hpos : 0 < formatSec r.window)
    (hlimit : 1 ≤ r.limit.toInt+r.burst.toInt) (hcount : 0 ≤ countOf k c.shared)
    (hm : Following r c) (hP : (limiter r).Along (fun c a => survives k c a = true) more c)
    (hrun : (limiter r).run more c = some c') : Counted r k c c' ∧ Following r c' := by
  have hnone : since (granted r k) c c = ∅ := by
    refine Finset.eq_empty_of_forall_notMem fun i hi => ?_
    obtain ⟨hnone,t,ht,hgranted⟩ := mem_since.mp hi
    simp only [uncounted,ht,Option.isNone_iff_eq_none] at hnone
    simp [granted,hnone] at hgranted
  refine (limiter r).run_invariant (I := fun d => Counted r k c d ∧ Following r d) ?_
    ⟨⟨by rw [hnone]; exact hcount,by rw [hnone]; simp only [Finset.card_empty]; omega⟩,hm⟩
    hP hrun
  rintro d a d' ⟨hcounted,hfollowing⟩ hPa hs
  exact ⟨hcounted.step hpos hlimit hfollowing hPa hs,following_step hfollowing hs⟩

theorem reached {acts : List Act} (hpos : 0 < formatSec r.window)
    (hrun : (limiter r).run acts started = some c) : 0 ≤ countOf k c.shared ∧ Following r c := by
  refine (limiter r).run_invariant (I := fun c => 0 ≤ countOf k c.shared ∧ Following r c) ?_
    ⟨show 0 ≤ countOf k started.shared from Int.le_refl 0,following_started⟩
    ((limiter r).along_true acts started) hrun
  rintro c a c' ⟨hcount,hfollowing⟩ _ hs
  exact ⟨nonneg_step hpos hfollowing hcount hs,following_step hfollowing hs⟩

end Window

section Lockout

theorem formatSec_whole {d : Duration} {seconds : Int} (hpos : 0 < seconds)
    (hd : d = seconds*second) : formatSec d = seconds := by
  have hlt : ¬(0 < d ∧ d < second) := by
    rintro ⟨_,hlt⟩
    have hlt' : seconds*1000000000 < (1000000000 : Int) := by simpa [hd,second] using hlt
    omega
  rw [formatSec,if_neg hlt,hd]
  exact Int.mul_tdiv_cancel _ (by decide)

-- the sum of limit and burst is a number the limiter can hold
def fits (r : RedisRateLimiter) : Prop := (r.limit+r.burst).toInt = r.limit.toInt+r.burst.toInt

theorem admits_one {r : RedisRateLimiter} (hlimit : 1 ≤ r.limit.toInt+r.burst.toInt)
    (hfits : fits r) : admits r 1 = true := by
  rw [fits] at hfits
  simp only [admits,Bool.or_eq_true,decide_eq_true_eq]
  exact .inr (by omega)

theorem key_never_locked_out (r : RedisRateLimiter) (seconds : Int) (hseconds : 0 < seconds)
    (hwindow : r.window = seconds*second) (hlimit : 1 ≤ r.limit.toInt+r.burst.toInt)
    (k : String) (acts : List Act) (c : Calls) (hrun : (limiter r).run acts started = some c) :
    ((limiter r).Along (fun c a => keepsExpiry k c a = true) acts started → Idle r k c →
      (∀ counter, c.shared.counters k = some counter → ∃ d, counter.deadline = some d ∧
        c.shared.now < d ∧ d ≤ c.shared.now+seconds*1000) ∧
      (fits r → ∀ key more c', redisKey r key = k →
        (limiter r).Along (fun _ a => sendsNone r k a = true) more c →
        (limiter r).run more c = some c' → c.shared.now+seconds*1000 ≤ c'.shared.now →
          (Prog.eval serve (allow r key) c'.shared).1 = .ok true)) ∧
    ∀ more c', (limiter r).run more c = some c' →
      (limiter r).Along (fun c a => survives k c a = true) more c →
      ((since (returnedTrue r k) c c').card : Int) ≤ r.limit.toInt+r.burst.toInt := by
  have hformat := formatSec_whole hseconds hwindow
  have hpos : 0 < formatSec r.window := hformat ▸ hseconds
  refine ⟨fun hP hidle => ?_,fun more c' hmore hsurvives => ?_⟩
  · obtain ⟨hbounded,hfollowing⟩ := bounded_run hpos hP hrun
    have hlimited := hbounded.limited hfollowing hidle
    rw [windowMs,hformat] at hlimited
    refine ⟨fun counter hk => hlimited counter.count counter.deadline hk,?_⟩
    rintro hfits key more c' rfl hquiet hmore hpast
    exact first_admitted (forgotten hlimited hidle hfollowing hquiet hmore hpast)
      (admits_one hlimit hfits)
  · obtain ⟨hcount,hfollowing⟩ := reached (k := k) hpos hrun
    obtain ⟨hcounted,hfollowing'⟩ := counted_run hpos hlimit hcount hfollowing hsurvives hmore
    have hsub := Finset.card_le_card (since_returned c (k := k) hfollowing')
    have hwithin := hcounted.within
    omega

def perSecond : RedisRateLimiter := ⟨1,0,second,"ratelimit"⟩

def loginKey : String := "ratelimit:10.0.0.7"

def oneCall : List Act := [.start "10.0.0.7",.exec 0 .answered,.exec 0 .answered]

theorem call_after_window_admitted : ∃ c c', (limiter perSecond).run oneCall started = some c ∧
    (limiter perSecond).run [.env 1000] c = some c' ∧
    (∃ counter d, c.shared.counters loginKey = some counter ∧ counter.deadline = some d ∧
      c.shared.now < d ∧ d ≤ c.shared.now+1000) ∧
    (Prog.eval serve (allow perSecond "10.0.0.7") c'.shared).1 = .ok true ∧
    ((since (returnedTrue perSecond loginKey) started c).card : Int) ≤ 1 := by
  have hresult : ((limiter perSecond).run oneCall started).map
      (fun c => (c.shared.counters loginKey,c.shared.now,c.threads.map fun t => (t.call,match t.rest with
        | .ret b => some b
        | _ => none))) = some (some ⟨1,some 1000⟩,0,[("10.0.0.7",some true)]) := by decide +kernel
  obtain ⟨c,hrun,hc⟩ := Option.map_eq_some_iff.mp hresult
  simp only [Prod.mk.injEq] at hc
  obtain ⟨hcounter,hnow,hthreads⟩ := hc
  have hidle : Idle perSecond loginKey c := by
    intro t ht _
    have hmem := List.mem_map_of_mem (f := fun t : Calling => (t.call,match t.rest with
        | .ret b => some b
        | _ => none)) ht
    rw [hthreads,List.mem_singleton,Prod.mk.injEq] at hmem
    cases hrest : t.rest with
    | ret b => exact .inr ⟨b,rfl⟩
    | fail e => exact e.elim
    | call op next => simp [hrest] at hmem
  obtain ⟨httl,hagain⟩ := (key_never_locked_out perSecond 1 (by decide) rfl (by decide) loginKey
    oneCall c hrun).1 (by decide +kernel) hidle
  obtain ⟨d,hd⟩ := httl _ hcounter
  refine ⟨c,{ c with shared := tick c.shared 1000 },hrun,rfl,⟨_,d,hcounter,hd⟩,?_,?_⟩
  · exact hagain (by unfold fits; decide) "10.0.0.7" [.env 1000] _ (by decide +kernel)
      ⟨rfl,trivial⟩ rfl (by simp [tick])
  · exact (key_never_locked_out perSecond 1 (by decide) rfl (by decide) loginKey [] started rfl).2
      oneCall c hrun (by decide +kernel)

-- the process goes down between INCR and EXPIRE
def crashBetween : List Act := [.start "10.0.0.7",.exec 0 .answered,.crash 0]

theorem crashed_call_leaves_key_for_ever :
    ¬∀ (r : RedisRateLimiter) (seconds : Int), 0 < seconds → r.window = seconds*second →
      1 ≤ r.limit.toInt+r.burst.toInt → ∀ (k : String) (acts : List Act) (c : Calls),
      (limiter r).run acts started = some c → Idle r k c →
        ∀ counter, c.shared.counters k = some counter → ∃ d, counter.deadline = some d ∧
          c.shared.now < d ∧ d ≤ c.shared.now+seconds*1000 := by
  intro h
  have hresult : ((limiter perSecond).run crashBetween started).map
      (fun c => (c.shared.counters loginKey,c.threads.map fun t => t.alive)) =
        some (some ⟨1,none⟩,[false]) := by decide +kernel
  obtain ⟨c,hrun,hc⟩ := Option.map_eq_some_iff.mp hresult
  simp only [Prod.mk.injEq] at hc
  obtain ⟨hcounter,hthreads⟩ := hc
  have hidle : Idle perSecond loginKey c := by
    intro t ht _
    have hmem := List.mem_map_of_mem (f := fun t : Calling => t.alive) ht
    rw [hthreads,List.mem_singleton] at hmem
    exact .inl hmem
  obtain ⟨d,hd,_⟩ := h perSecond 1 (by decide) rfl (by decide) loginKey crashBetween c hrun hidle
    _ hcounter
  cases hd

end Lockout

end Nimburion.HTTP.RateLimitRedis
