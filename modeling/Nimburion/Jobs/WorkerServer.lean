import Nimburion.Jobs.WorkerBudget
import Nimburion.Lib.InteractionAlone

-- the slot of one job is what the Redis server shows of it
namespace Nimburion.Jobs.Worker
open Interaction GoText GoTime
open RedisBackend (Text Server)

def waiting (w : World) (r : Redis.Store Text) : List Text :=
  (r.lists.filter fun x => x.key = RedisBackend.readyKey w.backend w.queue).map Redis.ListRow.val ++
    (r.zsets.filter fun z => z.key = RedisBackend.delayedKey w.backend w.queue).map
      Redis.ZRow.member

structure Shows (w : World) (key : String) (s : Server) (slot : Slot) : Prop where
  queued : waiting w s.store = slot.queued.toList
  leased : s.store.get key = slot.leased

def issues : RedisBackend.Op → List String
  | .reserveScript _ _ _ _ _ _ token => [token]
  | .saveEntry _ _ _ _ id => [id]
  | _ => []

-- one job: its payload is in one place, what is delayed is due, a token is drawn once, and the keys
-- are those of its queue, of its lease or of another queue
def Fits (w : World) (key : String) (s : Server) (slot : Slot) : RedisBackend.Op → Prop
  | .rpush _ k _ => slot.queued = none ∧ k = RedisBackend.readyKey w.backend w.queue
  | .zadd _ k _ _ => slot.queued = none ∧ k = RedisBackend.delayedKey w.backend w.queue
  | .reserveScript delayed ready leasePrefix nowMs transferBatch _ token =>
      delayed = RedisBackend.delayedKey w.backend w.queue ∧
      ready = RedisBackend.readyKey w.backend w.queue ∧ leasePrefix ++ token = key ∧
      slot.leased = none ∧ token ∉ s.issued ∧ 0 < transferBatch ∧
      ∀ z ∈ s.store.zsets, z.key = delayed → z.score ≤ nowMs
  | .getAndDeleteScript k => k = key
  | .transitionLeaseScript k ready delayed _ _ _ _ => k = key ∧ ∃ q,
      ready = RedisBackend.readyKey w.backend q ∧ delayed = RedisBackend.delayedKey w.backend q ∧
      (trimSpace q = trimSpace w.queue → slot.queued = none)
  | .pexpire k _ => k = key
  | .get k => k = key
  | .saveEntry entryKey _ indexKey _ id => entryKey ≠ key ∧
      indexKey ≠ RedisBackend.delayedKey w.backend w.queue ∧ id ∉ s.issued
  | .removeEntry .. => False
  | .zrevrange .. => False
  | _ => True

section Stores

variable {w : World} {r : Redis.Store Text} {k : String} {v : Text}

theorem readyKey_eq_iff (q : String) :
    RedisBackend.readyKey w.backend q = RedisBackend.readyKey w.backend w.queue ↔
      trimSpace q = trimSpace w.queue := by
  simp [RedisBackend.readyKey]

theorem delayedKey_eq_iff (q : String) :
    RedisBackend.delayedKey w.backend q = RedisBackend.delayedKey w.backend w.queue ↔
      trimSpace q = trimSpace w.queue := by
  simp [RedisBackend.delayedKey]

theorem waiting_eq_nil (h : waiting w r = []) :
    (r.lists.filter fun x => x.key = RedisBackend.readyKey w.backend w.queue) = [] ∧
    (r.zsets.filter fun z => z.key = RedisBackend.delayedKey w.backend w.queue) = [] := by
  obtain ⟨hready,hdelayed⟩ := List.append_eq_nil_iff.mp h
  exact ⟨List.map_eq_nil_iff.mp hready,List.map_eq_nil_iff.mp hdelayed⟩

theorem waiting_rpush (h : waiting w r = []) :
    waiting w (r.rpush (RedisBackend.readyKey w.backend w.queue) v) = [v] := by
  obtain ⟨hready,hdelayed⟩ := waiting_eq_nil h
  simp [waiting,Redis.Store.rpush,hready,hdelayed]

theorem waiting_rpush_other (hk : k ≠ RedisBackend.readyKey w.backend w.queue) :
    waiting w (r.rpush k v) = waiting w r := by
  simp [waiting,Redis.Store.rpush,hk]

theorem waiting_zrem (h : waiting w r = []) : waiting w (r.zrem k v) = [] := by
  obtain ⟨hready,hdelayed⟩ := waiting_eq_nil h
  rw [List.filter_eq_nil_iff] at hdelayed
  have hless : ((r.zrem k v).zsets.filter fun z =>
      z.key = RedisBackend.delayedKey w.backend w.queue) = [] := by
    rw [List.filter_eq_nil_iff]
    exact fun z hz => hdelayed z (List.mem_of_mem_filter hz)
  rw [waiting,hless]
  simp [Redis.Store.zrem,hready]

theorem waiting_zadd {score : Int} (h : waiting w r = []) :
    waiting w (r.zadd (RedisBackend.delayedKey w.backend w.queue) score v) = [v] := by
  have hrem := waiting_zrem (k := RedisBackend.delayedKey w.backend w.queue) (v := v) h
  obtain ⟨hready,hdelayed⟩ := waiting_eq_nil hrem
  simp only [Redis.Store.zrem] at hready hdelayed
  rw [waiting]
  simp only [Redis.Store.zadd,List.filter_append,hready,hdelayed]
  simp

theorem waiting_zadd_other {score : Int} (hk : k ≠ RedisBackend.delayedKey w.backend w.queue) :
    waiting w (r.zadd k score v) = waiting w r := by
  have hkeep : ((r.zsets.filter fun z => z.slot ≠ (k,v)).filter fun z =>
      z.key = RedisBackend.delayedKey w.backend w.queue) =
        r.zsets.filter fun z => z.key = RedisBackend.delayedKey w.backend w.queue := by
    rw [List.filter_filter]
    refine List.filter_congr fun z _ => ?_
    by_cases hz : z.key = RedisBackend.delayedKey w.backend w.queue
    · have hne : z.slot ≠ (k,v) := fun heq => hk ((congrArg Prod.fst heq).symm.trans hz)
      simp [hz,hne]
    · simp [hz]
  rw [waiting,waiting,Redis.Store.zadd]
  simp only [List.filter_append,hkeep]
  simp [hk]

theorem filter_eraseP {α : Type} (p : α → Bool) (l : List α) :
    (l.eraseP p).filter p = (l.filter p).tail := by
  induction l with
  | nil => rfl
  | cons a l ih =>
    cases hp : p a with
    | true => simp [hp]
    | false => simp [hp,ih]

theorem lpop_single {x : Redis.ListRow Text}
    (hready : (r.lists.filter fun x => x.key = RedisBackend.readyKey w.backend w.queue) = [x])
    (hdelayed : (r.zsets.filter fun z => z.key = RedisBackend.delayedKey w.backend w.queue) = []) :
    ∃ r', r.lpop (RedisBackend.readyKey w.backend w.queue) = (some x.val,r') ∧
      waiting w r' = [] := by
  refine ⟨(r.lpop (RedisBackend.readyKey w.backend w.queue)).2,Prod.ext ?_ rfl,?_⟩
  · rw [Redis.Store.lpop,← List.head?_filter,hready]
    rfl
  · simp only [waiting,Redis.Store.lpop,filter_eraseP,hready,hdelayed]
    rfl

theorem lpop_nothing
    (hready : (r.lists.filter fun x => x.key = RedisBackend.readyKey w.backend w.queue) = []) :
    r.lpop (RedisBackend.readyKey w.backend w.queue) = (none,r) := by
  have hnone : (r.lpop (RedisBackend.readyKey w.backend w.queue)).1 = none := by
    rw [Redis.Store.lpop,← List.head?_filter,hready]
    rfl
  exact Prod.ext hnone (Redis.Store.lpop_none r _ hnone)

theorem transfer_single {z : Redis.ZRow Text}
    (hready : (r.lists.filter fun x => x.key = RedisBackend.readyKey w.backend w.queue) = [])
    (hdelayed : (r.zsets.filter fun z => z.key = RedisBackend.delayedKey w.backend w.queue) = [z]) :
    let r' := (r.rpush (RedisBackend.readyKey w.backend w.queue) z.member).zrem
      (RedisBackend.delayedKey w.backend w.queue) z.member
    (r'.lists.filter fun x => x.key = RedisBackend.readyKey w.backend w.queue) =
        [⟨RedisBackend.readyKey w.backend w.queue,z.member⟩] ∧
      (r'.zsets.filter fun z => z.key = RedisBackend.delayedKey w.backend w.queue) = [] := by
  constructor
  · simp [Redis.Store.zrem,Redis.Store.rpush,hready]
  · rw [List.filter_eq_nil_iff]
    intro y hy hkey
    obtain ⟨hmem,hslot⟩ := List.mem_filter.mp hy
    have hyz : y ∈ [z] := hdelayed ▸ List.mem_filter.mpr ⟨hmem,hkey⟩
    rw [List.mem_singleton.mp hyz] at hslot hkey
    simp [Redis.ZRow.slot,of_decide_eq_true hkey] at hslot

theorem eq_some_of_cons {α : Type} {a : α} {l : List α} {o : Option α} (h : a :: l = o.toList) :
    o = some a ∧ l = [] := by
  cases o with
  | none => cases h
  | some b =>
    cases h
    exact ⟨rfl,rfl⟩

-- the list holds the payload or it is moved there first
theorem reserveScript_waiting (textLe : Text → Text → Bool) {payload : Option Text}
    (h : waiting w r = payload.toList) {nowMs transferBatch : Int} (hbatch : 0 < transferBatch)
    (hdue : ∀ z ∈ r.zsets, z.key = RedisBackend.delayedKey w.backend w.queue → z.score ≤ nowMs)
    {leasePrefix token : String} (hfree : r.get (leasePrefix ++ token) = none) (leaseMs : Int) :
    ∃ r', RedisBackend.reserveScript textLe r (RedisBackend.delayedKey w.backend w.queue)
        (RedisBackend.readyKey w.backend w.queue) leasePrefix nowMs transferBatch leaseMs token =
          (payload,r') ∧
      waiting w r' = [] ∧ r'.get (leasePrefix ++ token) = payload := by
  have hall : (r.zsets.filter fun z => z.key = RedisBackend.delayedKey w.backend w.queue ∧
      z.score ≤ nowMs) =
        r.zsets.filter fun z => z.key = RedisBackend.delayedKey w.backend w.queue := by
    refine List.filter_congr fun z hz => ?_
    by_cases hk : z.key = RedisBackend.delayedKey w.backend w.queue
    · simp [hk,hdue z hz hk]
    · simp [hk]
  have hlimit : 0 < transferBatch.toNat := by omega
  unfold RedisBackend.reserveScript Redis.Store.zrangeByScore
  rw [hall]
  generalize hready : (r.lists.filter fun x =>
    x.key = RedisBackend.readyKey w.backend w.queue) = ready
  generalize hdelayed : (r.zsets.filter fun z =>
    z.key = RedisBackend.delayedKey w.backend w.queue) = delayed
  have hboth : ready.map Redis.ListRow.val ++ delayed.map Redis.ZRow.member = payload.toList := by
    rw [← hready,← hdelayed]
    exact h
  cases ready with
  | cons x ready =>
    obtain ⟨rfl,hrest⟩ := eq_some_of_cons hboth
    obtain ⟨hready',hdelayed'⟩ := List.append_eq_nil_iff.mp hrest
    obtain rfl := List.map_eq_nil_iff.mp hready'
    obtain rfl := List.map_eq_nil_iff.mp hdelayed'
    obtain ⟨r',hpop,hwaiting⟩ := lpop_single hready hdelayed
    refine ⟨r'.setPX (leasePrefix ++ token) x.val leaseMs,by simp [hpop],hwaiting,?_⟩
    rw [Redis.Store.setPX,Redis.Store.get_set,if_pos rfl]
  | nil =>
    cases delayed with
    | nil =>
      obtain rfl : payload = none := Option.toList_eq_nil_iff.mp hboth.symm
      exact ⟨r,by simp [lpop_nothing hready],h,hfree⟩
    | cons z delayed =>
      obtain ⟨rfl,hrest⟩ := eq_some_of_cons hboth
      obtain rfl := List.map_eq_nil_iff.mp hrest
      obtain ⟨hready',hdelayed'⟩ := transfer_single hready hdelayed
      obtain ⟨r',hpop,hwaiting⟩ := lpop_single hready' hdelayed'
      obtain ⟨n,hn⟩ : ∃ n, transferBatch.toNat = n+1 := ⟨_,(Nat.succ_pred_eq_of_pos hlimit).symm⟩
      refine ⟨r'.setPX (leasePrefix ++ token) z.member leaseMs,by simp [hn,hpop],hwaiting,?_⟩
      rw [Redis.Store.setPX,Redis.Store.get_set,if_pos rfl]

end Stores

section Steps

variable {w : World} {key : String} {s : Server} {slot : Slot} {op : RedisBackend.Op}

theorem Shows.nothing (h : Shows w key s slot) (hnone : slot.queued = none) :
    waiting w s.store = [] := by
  rw [h.queued,hnone]
  rfl

theorem put_own {q : String} (hq : trimSpace q = trimSpace w.queue) (val : Text) :
    Slot.put w slot (RedisBackend.readyKey w.backend q) val = { slot with queued := some val } :=
  if_pos (.inl ((readyKey_eq_iff q).mpr hq))

theorem put_other {q : String} (hq : trimSpace q ≠ trimSpace w.queue) (val : Text) :
    Slot.put w slot (RedisBackend.readyKey w.backend q) val = { slot with elsewhere := some val } := by
  refine if_neg ?_
  rintro (heq | heq)
  · exact hq ((readyKey_eq_iff q).mp heq)
  · exact readyKey_ne_delayedKey w _ _ heq

-- the script pushes to the list or to the sorted set of one queue
theorem waiting_transition (slot : Slot) {r : Redis.Store Text} {q : String} {encoded : Text}
    {runAtMs nowMs : Int} (hwaiting : waiting w r = slot.queued.toList)
    (hown : trimSpace q = trimSpace w.queue → slot.queued = none) :
    waiting w (if runAtMs ≤ nowMs then r.rpush (RedisBackend.readyKey w.backend q) encoded
        else r.zadd (RedisBackend.delayedKey w.backend q) runAtMs encoded) =
      (Slot.put w slot (RedisBackend.readyKey w.backend q) encoded).queued.toList := by
  by_cases hq : trimSpace q = trimSpace w.queue
  · have hnone : waiting w r = [] := by rw [hwaiting,hown hq]; rfl
    rw [put_own hq,(readyKey_eq_iff q).mpr hq,(delayedKey_eq_iff q).mpr hq]
    split_ifs
    · exact waiting_rpush hnone
    · exact waiting_zadd hnone
  · rw [put_other hq]
    split_ifs
    · exact (waiting_rpush_other (mt (readyKey_eq_iff q).mp hq)).trans hwaiting
    · exact (waiting_zadd_other (mt (delayedKey_eq_iff q).mp hq)).trans hwaiting

theorem put_leased (k : String) (val : Text) : (Slot.put w slot k val).leased = slot.leased := by
  unfold Slot.put
  split_ifs
  · rfl
  · rfl

-- the server answers the operation as the slot does and goes on showing it
def Matched (w : World) (textLe : Text → Text → Bool) (key : String) (s : Server) (slot : Slot)
    (op : RedisBackend.Op) : Prop :=
  ∃ o s', RedisBackend.exec textLe s op o = some ((redis w slot op).1,s') ∧
    Shows w key s' (redis w slot op).2 ∧ s'.issued = issues op ++ s.issued

variable (textLe : Text → Text → Bool)

theorem matched_rpush {src : RedisBackend.Source} {val : Text} (h : Shows w key s slot)
    (hnone : slot.queued = none) : Matched w textLe key s slot
      (.rpush src (RedisBackend.readyKey w.backend w.queue) val) := by
  refine ⟨.done,_,rfl,⟨?_,?_⟩,rfl⟩
  · rw [redis,Slot.put,if_pos (.inl rfl)]
    exact waiting_rpush (h.nothing hnone)
  · exact h.leased.trans (put_leased _ _).symm

theorem matched_zadd {src : RedisBackend.Source} {score : Int} {val : Text} (h : Shows w key s slot)
    (hnone : slot.queued = none) : Matched w textLe key s slot
      (.zadd src (RedisBackend.delayedKey w.backend w.queue) score val) := by
  refine ⟨.done,_,rfl,⟨?_,?_⟩,rfl⟩
  · rw [redis,Slot.put,if_pos (.inr rfl)]
    exact waiting_zadd (h.nothing hnone)
  · exact h.leased.trans (put_leased _ _).symm

theorem matched_getAndDeleteScript (h : Shows w key s slot) :
    Matched w textLe key s slot (.getAndDeleteScript key) := by
  cases hslot : slot.leased with
  | none =>
    refine ⟨.done,s,?_,⟨h.queued,h.leased.trans hslot⟩,rfl⟩
    simp [RedisBackend.exec,RedisBackend.getAndDeleteScript,h.leased,redis,hslot,RedisBackend.reply]
  | some val =>
    refine ⟨.done,{ s with
      store := s.store.del key
      effects := .acked key val :: s.effects },?_,⟨h.queued,?_⟩,rfl⟩
    · simp [RedisBackend.exec,RedisBackend.getAndDeleteScript,h.leased,redis,hslot,
        RedisBackend.reply]
    · rw [Redis.Store.get_del,if_pos rfl]
      rfl

theorem matched_transitionLeaseScript {q : String} {expected encoded : Text} {runAtMs nowMs : Int}
    (h : Shows w key s slot) (hown : trimSpace q = trimSpace w.queue → slot.queued = none) :
    Matched w textLe key s slot (.transitionLeaseScript key (RedisBackend.readyKey w.backend q)
      (RedisBackend.delayedKey w.backend q) expected encoded runAtMs nowMs) := by
  by_cases hsame : slot.leased = some expected
  · refine ⟨.done,{ s with
      store := if runAtMs ≤ nowMs then
          (s.store.del key).rpush (RedisBackend.readyKey w.backend q) encoded
        else (s.store.del key).zadd (RedisBackend.delayedKey w.backend q) runAtMs encoded
      effects := .transitioned key expected encoded :: s.effects },?_,⟨?_,?_⟩,rfl⟩
    · simp only [RedisBackend.exec,RedisBackend.transitionLeaseScript,h.leased,redis,hsame,
        RedisBackend.reply,ne_eq,not_true_eq_false,if_false]
      by_cases hdue : runAtMs ≤ nowMs <;> simp [hdue]
    · simp only [redis,hsame,ne_eq,not_true_eq_false,if_false]
      exact waiting_transition { slot with leased := none } h.queued hown
    · simp only [redis,hsame,ne_eq,not_true_eq_false,if_false,put_leased]
      split_ifs
      · exact (Redis.Store.get_del s.store key key).trans (if_pos rfl)
      · exact (Redis.Store.get_del s.store key key).trans (if_pos rfl)
  -- without the lease, or with another payload under it, nothing changes
  · cases hslot : slot.leased with
    | none =>
      refine ⟨.done,s,?_,?_,rfl⟩
      · simp [RedisBackend.exec,RedisBackend.transitionLeaseScript,h.leased,redis,hslot,
          RedisBackend.reply]
      · simp only [redis,hslot]
        exact h
    | some current =>
      have hother : current ≠ expected := fun heq => hsame (heq ▸ hslot)
      refine ⟨.done,s,?_,?_,rfl⟩
      · simp [RedisBackend.exec,RedisBackend.transitionLeaseScript,h.leased,redis,hslot,
          RedisBackend.reply,hother]
      · simp only [redis,hslot,ne_eq,hother,not_false_eq_true,if_true]
        exact h

theorem matched_pexpire {ms : Int} (h : Shows w key s slot) :
    Matched w textLe key s slot (.pexpire key ms) := by
  refine ⟨.done,{ s with store := (s.store.pexpire key ms).2 },?_,⟨?_,?_⟩,rfl⟩
  · simp only [RedisBackend.exec,RedisBackend.reply,redis,Redis.Store.pexpire,h.leased]
    cases slot.leased <;> rfl
  · simp only [Redis.Store.pexpire]
    split
    · exact h.queued
    · exact h.queued
  · rw [Redis.Store.get_pexpire]
    exact h.leased

theorem server_follows_slot (h : Shows w key s slot) (hfits : Fits w key s slot op) :
    Matched w textLe key s slot op := by
  cases op with
  | ensureOpen => exact ⟨.done,s,rfl,h,rfl⟩
  | now => exact ⟨.at (w.times slot.reads),s,rfl,⟨h.queued,h.leased⟩,rfl⟩
  | randomToken =>
    exact ⟨.token (w.tokens slot.reads),s,if_pos (w.hex _),⟨h.queued,h.leased⟩,rfl⟩
  | rpush src k val =>
    obtain ⟨hnone,rfl⟩ := hfits
    exact matched_rpush textLe h hnone
  | zadd src k score member =>
    obtain ⟨hnone,rfl⟩ := hfits
    exact matched_zadd textLe h hnone
  | reserveScript delayed ready leasePrefix nowMs transferBatch leaseMs token =>
    obtain ⟨rfl,rfl,rfl,hleased,hfresh,hbatch,hdue⟩ := hfits
    obtain ⟨r',hscript,hwaiting,hget⟩ := reserveScript_waiting textLe h.queued hbatch hdue
      (h.leased.trans hleased) leaseMs
    refine ⟨.done,{ s with store := r', issued := token :: s.issued },?_,⟨hwaiting,hget⟩,rfl⟩
    rw [RedisBackend.exec,if_neg hfresh]
    simp only [hscript]
    rfl
  | getAndDeleteScript k =>
    cases hfits
    exact matched_getAndDeleteScript textLe h
  | transitionLeaseScript k ready delayed expected encoded runAtMs nowMs =>
    obtain ⟨rfl,q,rfl,rfl,hown⟩ := hfits
    exact matched_transitionLeaseScript textLe h hown
  | pexpire k ms =>
    cases hfits
    exact matched_pexpire textLe h
  | get k =>
    cases hfits
    refine ⟨.done,s,?_,h,rfl⟩
    rw [RedisBackend.exec,h.leased]
    rfl
  | saveEntry entryKey val indexKey score id =>
    obtain ⟨hentry,hindex,hfresh⟩ := hfits
    refine ⟨.done,_,if_neg hfresh,⟨?_,?_⟩,rfl⟩
    · exact (waiting_zadd_other (r := s.store.set entryKey val none) hindex).trans h.queued
    · exact ((Redis.Store.get_set s.store entryKey val key none).trans
        (if_neg (Ne.symm hentry))).trans h.leased
  | removeEntry indexKey id entryKey => exact hfits.elim
  | zrevrange k limit => exact hfits.elim

end Steps

section Calls

variable {w : World} {textLe : Text → Text → Bool} {c : RedisBackend.Config} {key : String}
  {s : Server} {slot : Slot} {α : Type}

theorem follows_op {op : RedisBackend.Op}
    {Q : Except GoError (RedisBackend.Ans op) → Server → Slot → Prop} (h : Shows w key s slot)
    (hfits : Fits w key s slot op) (hnext : ∀ s', Shows w key s' (redis w slot op).2 →
      s'.issued = issues op ++ s.issued → Q (.ok (redis w slot op).1) s' (redis w slot op).2) :
    (RedisBackend.system textLe c).Follows (redis w) Q s slot (Prog.perform op) := by
  obtain ⟨o,s',hexec,hshows,hissued⟩ := server_follows_slot textLe h hfits
  exact ⟨o,s',hexec,hnext s' hshows hissued⟩

theorem follows_ensureOpen (Q : Except GoError Unit → Server → Slot → Prop) (h : Q (.ok ()) s slot) :
    (RedisBackend.system textLe c).Follows (redis w) Q s slot RedisBackend.ensureOpen :=
  ⟨.done,s,rfl,h⟩

theorem follows_now (Q : Except GoError Time → Server → Slot → Prop)
    (h : Q (.ok (w.times slot.reads)) s { slot with reads := slot.reads+1 }) :
    (RedisBackend.system textLe c).Follows (redis w) Q s slot RedisBackend.now :=
  ⟨.at (w.times slot.reads),s,rfl,h⟩

theorem follows_randomToken (Q : Except GoError String → Server → Slot → Prop)
    (h : Q (.ok (w.tokens slot.reads)) s { slot with reads := slot.reads+1 }) :
    (RedisBackend.system textLe c).Follows (redis w) Q s slot RedisBackend.randomToken :=
  ⟨.token (w.tokens slot.reads),s,if_pos (w.hex _),h⟩

theorem follows_orNow (t : Time) (Q : Except GoError Time → Server → Slot → Prop)
    (h : ∀ u reads, slot.reads ≤ reads → Q (.ok u) s { slot with reads := reads }) :
    (RedisBackend.system textLe c).Follows (redis w) Q s slot (RedisBackend.orNow t) := by
  unfold RedisBackend.orNow
  split_ifs
  · exact follows_now Q (h _ _ (Nat.le_succ _))
  · exact h t slot.reads (Nat.le_refl _)

theorem Shows.later (h : Shows w key s slot) (reads : ℕ) :
    Shows w key s { slot with reads := reads } := ⟨h.queued,h.leased⟩

theorem follows_ack {lease : Lease} {Q : Except GoError Unit → Server → Slot → Prop}
    (h : Shows w key s slot) (hkey : RedisBackend.leaseKey w.backend (trimSpace lease.token) = key)
    (hQ : ∀ r s' slot', Shows w key s' slot' → Q r s' slot') :
    (RedisBackend.system textLe c).Follows (redis w) Q s slot
      (RedisBackend.ack w.backend lease) := by
  unfold RedisBackend.ack
  rw [Machine.follows_bind]
  refine follows_ensureOpen _ ?_
  dsimp only
  split_ifs
  · exact hQ _ _ _ h
  · rw [Machine.follows_bind]
    exact follows_op h hkey fun s' h' _ => hQ _ _ _ h'

theorem follows_get {Q : Except GoError (Except GoError (Option Text)) → Server → Slot → Prop}
    (h : Shows w key s slot) (hQ : Q (.ok (.ok slot.leased)) s slot) :
    (RedisBackend.system textLe c).Follows (redis w) Q s slot
      (Prog.perform (RedisBackend.Op.get key)) :=
  ⟨.done,s,congrArg (fun val => some (Except.ok val,s)) h.leased,hQ⟩

theorem follows_readLeasedJob {lease : Lease} {Q : Except GoError (Text × Job) → Server → Slot → Prop}
    (h : Shows w key s slot) (hkey : RedisBackend.leaseKey w.backend (trimSpace lease.token) = key)
    (hQ : ∀ r, Q r s slot) : (RedisBackend.system textLe c).Follows (redis w) Q s slot
      (RedisBackend.readLeasedJob w.backend lease) := by
  unfold RedisBackend.readLeasedJob
  rw [Machine.follows_bind]
  refine follows_ensureOpen _ ?_
  dsimp only
  split_ifs
  · exact hQ _
  · rw [Machine.follows_bind,hkey]
    refine follows_get h ?_
    cases slot.leased with
    | none => exact hQ _
    | some raw =>
      simp only [Machine.follows_bind,Machine.follows_liftExcept]
      cases RedisBackend.decodeLeased lease raw with
      | error e => exact hQ _
      | ok job => exact hQ _

theorem redis_reads (slot : Slot) (op : RedisBackend.Op) :
    slot.reads ≤ (redis w slot op).2.reads := by
  cases op with
  | now | randomToken => exact Nat.le_succ _
  | rpush | zadd => simp only [redis,Slot.put]; split_ifs <;> exact Nat.le_refl _
  | transitionLeaseScript =>
    simp only [redis,Slot.put]
    split
    · exact Nat.le_refl _
    · split_ifs <;> exact Nat.le_refl _
  | _ => exact Nat.le_refl _

theorem follows_transitionResult {r : Except GoError Int}
    {Q : Except GoError Unit → Server → Slot → Prop} (hQ : ∀ r, Q r s slot) :
    (RedisBackend.system textLe c).Follows (redis w) Q s slot (RedisBackend.transitionResult r) := by
  unfold RedisBackend.transitionResult
  split <;> exact hQ _

-- what a call leaves for the next one: the slot still shows the server, and no token is taken twice
structure Kept (w : World) (key : String) (s : Server) (slot : Slot) (s' : Server) (slot' : Slot) :
    Prop where
  shows : Shows w key s' slot'
  issued : s'.issued = s.issued
  reads : slot.reads ≤ slot'.reads

theorem follows_transitionLeaseToQueue {lease : Lease} {expected encoded : Text} {queue : String}
    {runAt : Time} {Q : Except GoError Unit → Server → Slot → Prop} (h : Shows w key s slot)
    (hkey : RedisBackend.leaseKey w.backend (trimSpace lease.token) = key)
    (hnone : slot.queued = none) (hQ : ∀ r s' slot', Kept w key s slot s' slot' → Q r s' slot') :
    (RedisBackend.system textLe c).Follows (redis w) Q s slot
      (RedisBackend.transitionLeaseToQueue w.backend lease expected encoded queue runAt) := by
  have hself : ∀ e, Q (.error e) s slot := fun e => hQ _ _ _ ⟨h,rfl,Nat.le_refl _⟩
  unfold RedisBackend.transitionLeaseToQueue
  rw [Machine.follows_bind]
  refine follows_ensureOpen _ ?_
  dsimp only
  split_ifs
  · exact hself _
  · exact hself _
  · exact hself _
  · exact hself _
  · rw [Machine.follows_bind]
    refine follows_orNow _ _ fun u reads hreads => ?_
    dsimp only
    rw [Machine.follows_bind]
    refine follows_now _ ?_
    dsimp only
    rw [Machine.follows_bind]
    refine follows_op (h.later _) ⟨hkey,trimSpace queue,rfl,rfl,fun _ => hnone⟩
      fun s' h' hissued => ?_
    refine follows_transitionResult fun r => hQ r _ _ ⟨h',hissued,?_⟩
    exact Nat.le_trans (Nat.le_succ_of_le hreads) (redis_reads { slot with reads := reads+1 } _)

theorem follows_nack {lease : Lease} {nextRunAt : Time} {reason : Option GoError}
    (h : Shows w key s slot)
    (hkey : RedisBackend.leaseKey w.backend (trimSpace lease.token) = key)
    (hnone : slot.queued = none) :
    (RedisBackend.system textLe c).Follows (redis w) (fun _ s' slot' => Shows w key s' slot') s slot
      (RedisBackend.nack w.backend lease nextRunAt reason) := by
  unfold RedisBackend.nack
  rw [Machine.follows_bind]
  refine follows_readLeasedJob h hkey ?_
  rintro (e | ⟨raw,job⟩)
  · exact h
  · dsimp only
    rw [Machine.follows_bind]
    refine follows_now _ ?_
    dsimp only
    rw [Machine.follows_bind]
    refine follows_orNow _ _ fun runAt reads _ => ?_
    dsimp only
    split
    · exact h.later _
    · exact follows_transitionLeaseToQueue (h.later _) hkey hnone fun r s' slot' hkept => hkept.shows

theorem leaseKey_ne_dlqEntryKey (token queue id : String) :
    RedisBackend.dlqEntryKey w.backend queue id ≠ RedisBackend.leaseKey w.backend token := by
  intro heq
  have hlist := congrArg String.toList heq
  simp [RedisBackend.dlqEntryKey,RedisBackend.leaseKey,List.append_assoc] at hlist

theorem dlqIndexKey_ne_delayedKey (queue queue' : String) :
    RedisBackend.dlqIndexKey w.backend queue ≠ RedisBackend.delayedKey w.backend queue' := by
  intro heq
  have hlist := congrArg String.toList heq
  simp [RedisBackend.dlqIndexKey,RedisBackend.delayedKey,List.append_assoc] at hlist

theorem follows_saveDLQEntry {entry : RedisBackend.DLQRecord} {n : ℕ} {lease : Lease}
    (h : Shows w key s slot)
    (hkey : RedisBackend.leaseKey w.backend (trimSpace lease.token) = key)
    (hid : entry.id = w.tokens n) (hfresh : w.tokens n ∉ s.issued) :
    (RedisBackend.system textLe c).Follows (redis w) (fun _ s' slot' => Shows w key s' slot') s slot
      (RedisBackend.saveDLQEntry w.backend entry) := by
  have hdrawn : RedisBackend.orRandomToken entry.id = pure entry.id := by
    rw [RedisBackend.orRandomToken,if_neg (hid ▸ token_ne_blank w n)]
  unfold RedisBackend.saveDLQEntry
  dsimp only
  split_ifs
  · exact h
  · rw [hdrawn,Machine.follows_bind,Machine.follows_pure]
    dsimp only
    rw [Machine.follows_bind]
    refine follows_orNow _ _ fun failedAt reads _ => ?_
    dsimp only
    split
    · exact h.later _
    · rw [Machine.follows_bind]
      refine follows_op (h.later _) ⟨?_,?_,hid ▸ hfresh⟩ fun s' h' _ => ?_
      · exact hkey ▸ leaseKey_ne_dlqEntryKey _ _ _
      · exact dlqIndexKey_ne_delayedKey _ _
      · exact h'

theorem follows_moveToDLQ {lease : Lease} {reason : Option GoError} (h : Shows w key s slot)
    (hkey : RedisBackend.leaseKey w.backend (trimSpace lease.token) = key)
    (hnone : slot.queued = none) (hfresh : ∀ n, slot.reads ≤ n → w.tokens n ∉ s.issued) :
    (RedisBackend.system textLe c).Follows (redis w) (fun _ s' slot' => Shows w key s' slot') s slot
      (RedisBackend.moveToDLQ w.backend lease reason) := by
  unfold RedisBackend.moveToDLQ
  rw [Machine.follows_bind]
  refine follows_readLeasedJob h hkey ?_
  rintro (e | ⟨raw,job⟩)
  · exact h
  · dsimp only
    rw [Machine.follows_bind]
    refine follows_now _ ?_
    dsimp only
    split
    · exact h.later _
    · rw [Machine.follows_bind]
      refine follows_now _ ?_
      dsimp only
      rw [Machine.follows_bind]
      refine follows_transitionLeaseToQueue (h.later _) hkey hnone ?_
      rintro (e | ⟨⟩) s' slot' hkept
      · exact hkept.shows
      · dsimp only
        rw [Machine.follows_bind]
        refine follows_randomToken _ ?_
        dsimp only
        rw [Machine.follows_bind]
        refine follows_now _ ?_
        refine follows_saveDLQEntry (n := slot'.reads) (hkept.shows.later _) hkey rfl ?_
        rw [hkept.issued]
        exact hfresh _ (Nat.le_trans (Nat.le_add_right _ 2) hkept.reads)

theorem follows_enqueue {job : Job} (h : Shows w key s slot) (hnone : slot.queued = none)
    (hqueue : trimSpace job.queue = trimSpace w.queue) :
    (RedisBackend.system textLe c).Follows (redis w) (fun _ s' slot' => Shows w key s' slot') s slot
      (RedisBackend.enqueue w.backend job) := by
  unfold RedisBackend.enqueue RedisBackend.enqueueFrom
  rw [Machine.follows_bind]
  refine follows_ensureOpen _ ?_
  dsimp only
  rw [Machine.follows_bind,Machine.follows_liftExcept]
  cases job.validate with
  | error e => exact h
  | ok _ =>
    dsimp only
    rw [Machine.follows_bind]
    refine follows_orNow _ _ fun createdAt reads _ => ?_
    dsimp only
    split
    · exact h.later _
    · rw [Machine.follows_bind]
      refine follows_now _ ?_
      dsimp only
      unfold RedisBackend.pushEncoded
      split_ifs
      · rw [Machine.follows_bind]
        exact follows_op (h.later _) ⟨hnone,(readyKey_eq_iff _).mpr hqueue⟩ fun s' h' _ => h'
      · rw [Machine.follows_bind]
        exact follows_op (h.later _) ⟨hnone,(delayedKey_eq_iff _).mpr hqueue⟩ fun s' h' _ => h'

theorem transferBatch_pos : 0 < w.backend.transferBatch := by
  unfold World.backend RedisBackend.Config.normalize
  dsimp only
  split_ifs with h
  · decide
  · exact Int.not_le.mp h

theorem leaseKey_token (n : ℕ) : RedisBackend.leaseKey w.backend (trimSpace (w.tokens n)) =
    RedisBackend.leaseKeyPrefix w.backend ++ w.tokens n := by
  simp [RedisBackend.leaseKey,RedisBackend.leaseKeyPrefix,
    RedisBackend.trimSpace_hexToken (w.hex n)]

theorem follows_reserveLoop {leaseFor leaseMs : Int} {ctxErr : GoError} (h : Shows w key s slot)
    (hkey : RedisBackend.leaseKeyPrefix w.backend ++ w.tokens slot.reads = key)
    (hleased : slot.leased = none) (hfresh : w.tokens slot.reads ∉ s.issued)
    (hdue : ∀ z ∈ s.store.zsets, z.key = RedisBackend.delayedKey w.backend w.queue →
      z.score ≤ unixMilli (w.times (slot.reads+1))) :
    (RedisBackend.system textLe c).Follows (redis w) (fun _ s' slot' => Shows w key s' slot') s slot
      (RedisBackend.reserveLoop w.backend (trimSpace w.queue) leaseFor leaseMs ctxErr 1) := by
  have hready := (readyKey_eq_iff (w := w) (trimSpace w.queue)).mpr (trimSpace_trimSpace _)
  have hdelayed := (delayedKey_eq_iff (w := w) (trimSpace w.queue)).mpr (trimSpace_trimSpace _)
  unfold RedisBackend.reserveLoop
  rw [Machine.follows_bind]
  refine follows_randomToken _ ?_
  dsimp only
  rw [Machine.follows_bind]
  refine follows_now _ ?_
  dsimp only
  rw [Machine.follows_bind]
  refine follows_op (h.later _)
    ⟨hdelayed,hready,hkey,hleased,hfresh,transferBatch_pos,hdelayed ▸ hdue⟩ fun s' h' _ => ?_
  revert h'
  simp only [redis]
  intro h'
  split
  · exact h'
  · exact h'
  · split_ifs
    · exact h'
    · split
      · rw [Machine.follows_bind,Machine.follows_attempt]
        exact follows_ack h' ((leaseKey_token _).trans hkey) fun _ _ _ hdone => hdone
      · exact h'

theorem follows_reserve {leaseFor : Duration} {ctxErr : GoError} (h : Shows w key s slot)
    (hkey : RedisBackend.leaseKeyPrefix w.backend ++ w.tokens slot.reads = key)
    (hleased : slot.leased = none) (hfresh : w.tokens slot.reads ∉ s.issued)
    (hdue : ∀ z ∈ s.store.zsets, z.key = RedisBackend.delayedKey w.backend w.queue →
      z.score ≤ unixMilli (w.times (slot.reads+1))) :
    (RedisBackend.system textLe c).Follows (redis w) (fun _ s' slot' => Shows w key s' slot') s slot
      (RedisBackend.reserve w.backend w.queue leaseFor ctxErr 1) := by
  unfold RedisBackend.reserve
  rw [Machine.follows_bind]
  refine follows_ensureOpen _ ?_
  dsimp only
  by_cases hblank : trimSpace w.queue = ""
  · rw [if_pos hblank]
    exact h
  · rw [if_neg hblank]
    exact follows_reserveLoop h hkey hleased hfresh hdue

-- the call has a run on the server that answers as the slot does and leaves what the slot shows
def RunsAlone (w : World) (textLe : Text → Text → Bool) (key : String) (s : Server) (slot : Slot)
    (p : RedisBackend.M α) : Prop :=
  ∃ xs performed s', (RedisBackend.system textLe w.config).alone xs [] s p =
    some (performed,(p.eval (redis w) slot).1,s') ∧ Shows w key s' (p.eval (redis w) slot).2

theorem slot_calls_run_on_server (textLe : Text → Text → Bool) (h : Shows w key s slot) :
    (∀ job, slot.queued = none → trimSpace job.queue = trimSpace w.queue →
      RunsAlone w textLe key s slot (RedisBackend.enqueue w.backend job)) ∧
    (∀ leaseFor ctxErr, slot.leased = none →
      RedisBackend.leaseKeyPrefix w.backend ++ w.tokens slot.reads = key →
      w.tokens slot.reads ∉ s.issued →
      (∀ z ∈ s.store.zsets, z.key = RedisBackend.delayedKey w.backend w.queue →
        z.score ≤ unixMilli (w.times (slot.reads+1))) →
      RunsAlone w textLe key s slot (RedisBackend.reserve w.backend w.queue leaseFor ctxErr 1)) ∧
    ∀ lease, RedisBackend.leaseKey w.backend (trimSpace lease.token) = key →
      RunsAlone w textLe key s slot (RedisBackend.ack w.backend lease) ∧
      (slot.queued = none → ∀ nextRunAt reason,
        RunsAlone w textLe key s slot (RedisBackend.nack w.backend lease nextRunAt reason)) ∧
      (slot.queued = none → (∀ n, slot.reads ≤ n → w.tokens n ∉ s.issued) → ∀ reason,
        RunsAlone w textLe key s slot (RedisBackend.moveToDLQ w.backend lease reason)) := by
  refine ⟨fun job hnone hqueue => ?_,fun leaseFor ctxErr hleased hkey hfresh hdue => ?_,
    fun lease hkey => ⟨?_,fun hnone nextRunAt reason => ?_,fun hnone hfresh reason => ?_⟩⟩
  · exact (follows_enqueue h hnone hqueue).alone []
  · exact (follows_reserve h hkey hleased hfresh hdue).alone []
  · exact (follows_ack h hkey fun _ _ _ hdone => hdone).alone []
  · exact (follows_nack h hkey hnone).alone []
  · exact (follows_moveToDLQ h hkey hnone hfresh).alone []

end Calls

end Nimburion.Jobs.Worker
