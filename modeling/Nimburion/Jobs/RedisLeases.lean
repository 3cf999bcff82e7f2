import Nimburion.Jobs.RedisDiscipline

namespace Nimburion.Jobs.RedisBackend
open Interaction GoText GoTime

variable {textLe : Text → Text → Bool} {b : Config} {s s' : Server} {op : Op} {o : Outcome}

theorem reply_cases {α : Type} {a : α} {ans : Except GoError α} {t t' u : Server}
    (h : reply t t' a o = some (ans,u)) : u = t ∨ u = t' := by
  cases o <;> simp only [reply,Option.some.injEq,Prod.mk.injEq,reduceCtorEq] at h
  · exact .inr h.2.symm
  · exact .inl h.2.symm
  · exact .inr h.2.symm

inductive Executed (textLe : Text → Text → Bool) (s : Server) : Op → Server → Prop
  | idle (op : Op) : Executed textLe s op s
  | rpush (src : Source) (key : String) (val : Text) :
      Executed textLe s (.rpush src key val) { s with
        store := s.store.rpush key val
        effects := .enqueued src key val :: s.effects }
  | zadd (src : Source) (key : String) (score : Int) (member : Text) :
      Executed textLe s (.zadd src key score member) { s with
        store := s.store.zadd key score member
        effects := .enqueued src key member :: s.effects }
  | reserve (delayed ready leasePrefix : String) (nowMs transferBatch leaseMs : Int)
      (token : String) (fresh : token ∉ s.issued) :
      Executed textLe s
        (.reserveScript delayed ready leasePrefix nowMs transferBatch leaseMs token) { s with
        store := (reserveScript textLe s.store delayed ready leasePrefix nowMs transferBatch
          leaseMs token).2
        issued := token :: s.issued }
  | getAndDelete (key : String) :
      Executed textLe s (.getAndDeleteScript key) { s with
        store := (getAndDeleteScript s.store key).2
        effects := ((getAndDeleteScript s.store key).1.map (Effect.acked key)).toList ++
          s.effects }
  | transition (lease ready delayed : String) (expected encoded : Text) (runAtMs nowMs : Int) :
      Executed textLe s
        (.transitionLeaseScript lease ready delayed expected encoded runAtMs nowMs) { s with
        store := (transitionLeaseScript s.store lease ready delayed expected encoded runAtMs
          nowMs).2
        effects := (if (transitionLeaseScript s.store lease ready delayed expected encoded runAtMs
          nowMs).1 = 1 then [Effect.transitioned lease expected encoded] else []) ++ s.effects }
  | pexpire (key : String) (ms : Int) :
      Executed textLe s (.pexpire key ms) { s with store := (s.store.pexpire key ms).2 }
  | saveEntry (entryKey : String) (val : Text) (indexKey : String) (score : Int) (id : String)
      (fresh : id ∉ s.issued) :
      Executed textLe s (.saveEntry entryKey val indexKey score id) { s with
        store := (s.store.set entryKey val none).zadd indexKey score (.raw id)
        issued := id :: s.issued }
  | removeEntry (indexKey id entryKey : String) :
      Executed textLe s (.removeEntry indexKey id entryKey) { s with
        store := (s.store.zrem indexKey (.raw id)).del entryKey }

theorem executed_of_reply {α : Type} {a : α} {ans : Except GoError α} {t' : Server}
    (ht : Executed textLe s op t') (h : reply s t' a o = some (ans,s')) :
    Executed textLe s op s' := by
  rcases reply_cases h with rfl | rfl
  · exact .idle op
  · exact ht

theorem executed_of_exec {ans : Ans op} (h : exec textLe s op o = some (ans,s')) :
    Executed textLe s op s' := by
  cases op with
  | ensureOpen =>
    cases o <;> simp only [exec,Option.some.injEq,Prod.mk.injEq,reduceCtorEq] at h
    all_goals exact h.2 ▸ .idle _
  | now =>
    cases o <;> simp only [exec,Option.some.injEq,Prod.mk.injEq,reduceCtorEq] at h
    exact h.2 ▸ .idle _
  | randomToken =>
    cases o <;> simp only [exec,Option.ite_none_right_eq_some,Option.some.injEq,Prod.mk.injEq,
      reduceCtorEq] at h
    exact h.2.2 ▸ .idle _
  | rpush src key val => exact executed_of_reply (.rpush src key val) h
  | zadd src key score member => exact executed_of_reply (.zadd src key score member) h
  | reserveScript delayed ready leasePrefix nowMs transferBatch leaseMs token =>
    simp only [exec] at h
    split_ifs at h with hfresh
    exact executed_of_reply (.reserve _ _ _ _ _ _ _ hfresh) h
  | getAndDeleteScript key => exact executed_of_reply (.getAndDelete key) h
  | transitionLeaseScript lease ready delayed expected encoded runAtMs nowMs =>
    exact executed_of_reply (.transition lease ready delayed expected encoded runAtMs nowMs) h
  | pexpire key ms => exact executed_of_reply (.pexpire key ms) h
  | get key => exact executed_of_reply (.idle _) h
  | saveEntry entryKey val indexKey score id =>
    simp only [exec] at h
    split_ifs at h with hfresh
    exact executed_of_reply (.saveEntry _ _ _ _ _ hfresh) h
  | removeEntry indexKey id entryKey =>
    exact executed_of_reply (.removeEntry indexKey id entryKey) h
  | zrevrange key limit => exact executed_of_reply (.idle _) h

def pushOf : Op → Option (Source × Text)
  | .rpush src _ val => some (src,val)
  | .zadd src _ _ member => some (src,member)
  | _ => none

theorem effects_executed (h : Executed textLe s op s') : s'.effects = s.effects ∨
    (∃ src key val, pushOf op = some (src,val) ∧ s'.effects = .enqueued src key val :: s.effects) ∨
    (∃ key v, s'.effects = .acked key v :: s.effects) ∨
    ∃ key v v', s'.effects = .transitioned key v v' :: s.effects := by
  cases h with
  | idle | pexpire | reserve | saveEntry | removeEntry => exact .inl rfl
  | rpush src key val => exact .inr (.inl ⟨src,key,val,rfl,rfl⟩)
  | zadd src key score member => exact .inr (.inl ⟨src,key,member,rfl,rfl⟩)
  | getAndDelete key =>
    dsimp only
    cases (getAndDeleteScript s.store key).1 with
    | none => exact .inl rfl
    | some v => exact .inr (.inr (.inl ⟨key,v,rfl⟩))
  | transition lease ready delayed expected encoded runAtMs nowMs =>
    dsimp only
    split_ifs
    · exact .inr (.inr (.inr ⟨lease,expected,encoded,rfl⟩))
    · exact .inl rfl

theorem effects_suffix (h : Executed textLe s op s') : s.effects <:+ s'.effects := by
  rcases effects_executed h with he | ⟨src,key,val,_,he⟩ | ⟨key,v,he⟩ | ⟨key,v,v',he⟩
  · exact he ▸ List.suffix_refl _
  all_goals exact he ▸ List.suffix_cons _ _

theorem pushed_of_effects {src : Source} {key : String} {val : Text}
    (h : Executed textLe s op s') (he : s'.effects = .enqueued src key val :: s.effects) :
    op = .rpush src key val ∧ s'.store = s.store.rpush key val ∨
      ∃ score, op = .zadd src key score val ∧ s'.store = s.store.zadd key score val := by
  cases h with
  | idle | pexpire | reserve | saveEntry | removeEntry =>
    exact absurd he.symm (List.cons_ne_self _ _)
  | rpush src' key' val' =>
    cases he
    exact .inl ⟨rfl,rfl⟩
  | zadd src' key' score member =>
    cases he
    exact .inr ⟨score,rfl,rfl⟩
  | getAndDelete key' =>
    dsimp only at he
    cases hv : (getAndDeleteScript s.store key').1 with
    | none =>
      rw [hv] at he
      exact absurd he.symm (List.cons_ne_self _ _)
    | some v =>
      rw [hv] at he
      cases he
  | transition lease ready delayed expected encoded runAtMs nowMs =>
    dsimp only at he
    split_ifs at he
    · cases he
    · exact absurd he.symm (List.cons_ne_self _ _)

theorem permitted_client {call : Call} {tr : Trace} {v : Text} (hpre : Permitted b call tr op)
    (hpush : pushOf op = some (.client,v)) : ∃ job, v = .envelope (some job) ∧
      ∃ j, call = .enqueue j ∧ Stamped j job ∧ pushes tr = 0 ∧ ∀ ans, isPush ⟨op,ans⟩ = true := by
  cases op <;> simp only [pushOf,Option.some.injEq,Prod.mk.injEq,reduceCtorEq] at hpush
  all_goals
    obtain ⟨rfl,rfl⟩ := hpush
    obtain ⟨job,rfl,_,_,j,hcall,hstamped,hnone⟩ := hpre
    exact ⟨job,rfl,j,hcall,hstamped,hnone,fun _ => rfl⟩

def isLeaseKey (b : Config) (key : String) : Bool :=
  (leaseKeyPrefix b).toList.isPrefixOf key.toList

@[simp] theorem isLeaseKey_append (t : String) : isLeaseKey b (leaseKeyPrefix b ++ t) = true := by
  simp [isLeaseKey]

@[simp] theorem isLeaseKey_leaseKey (t : String) : isLeaseKey b (leaseKey b t) = true :=
  isLeaseKey_append (trimSpace t)

@[simp] theorem isLeaseKey_dlqEntryKey (queue id : String) :
    isLeaseKey b (dlqEntryKey b queue id) = false := by
  rw [isLeaseKey,Bool.eq_false_iff,ne_eq,List.isPrefixOf_iff_prefix]
  simp only [leaseKeyPrefix,dlqEntryKey,String.toList_append,List.append_assoc,
    List.prefix_append_right_inj]
  intro h
  have hsecond := h.getElem (i := 1) (by decide)
  simp at hsecond

structure Sound (b : Config) (s : Server) : Prop where
  placed : s.store.Placed (fun key => ∃ queue, key = readyKey b queue)
    (fun key v => (∃ queue, key = delayedKey b queue) ∨ v.job? = none)
    (fun key => isLeaseKey b key = true → ∃ token ∈ s.issued, key = leaseKeyPrefix b ++ token)

theorem sound_empty : Sound b .empty := ⟨⟨by simp [Server.empty,Redis.Store.empty],
  by simp [Server.empty,Redis.Store.empty],by simp [Server.empty,Redis.Store.empty]⟩⟩

theorem sound_tick (h : Sound b s) (ms : ℕ) :
    Sound b { s with store := s.store.tick ms } := ⟨h.placed.tick⟩

section Scripts

variable {L : String → Prop} {Z : String → Text → Prop} {S S' : String → Prop}
  {r : Redis.Store Text}

theorem placed_reserveScript {delayed ready leasePrefix token : String}
    {nowMs transferBatch leaseMs : Int} (h : r.Placed L Z S) (hready : L ready)
    (hlease : S (leasePrefix ++ token)) : (reserveScript textLe r delayed ready leasePrefix nowMs
      transferBatch leaseMs token).2.Placed L Z S := by
  unfold reserveScript
  dsimp only
  have ht := Redis.Store.Placed.transfer (k := delayed) hready
    (r.zrangeByScore textLe delayed nowMs transferBatch.toNat) h
  revert ht
  generalize List.foldl _ r _ = r'
  intro ht
  have hp := ht.lpop (k := ready)
  split
  · rename_i r'' hr
    rw [hr] at hp
    exact hp
  · rename_i payload r'' hr
    rw [hr] at hp
    exact hp.set hlease

theorem placed_getAndDeleteScript {key : String} (h : r.Placed L Z S) :
    (getAndDeleteScript r key).2.Placed L Z S := by
  unfold getAndDeleteScript
  split
  · exact h
  · exact h.del

theorem placed_transitionLeaseScript {lease ready delayed : String} {expected encoded : Text}
    {runAtMs nowMs : Int} (h : r.Placed L Z S) (hready : L ready) (hdelayed : Z delayed encoded) :
    (transitionLeaseScript r lease ready delayed expected encoded runAtMs nowMs).2.Placed
      L Z S := by
  unfold transitionLeaseScript
  split
  · exact h
  · split_ifs
    · exact h
    · exact h.del.rpush hready
    · exact h.del.zadd hdelayed

end Scripts

theorem sound_executed {call : Call} {tr : Trace} (h : Sound b s)
    (hpre : Permitted b call tr op) (hx : Executed textLe s op s') : Sound b s' := by
  cases hx with
  | idle => exact h
  | rpush src key val =>
    obtain ⟨job,rfl,_,rfl,_⟩ := hpre
    exact ⟨h.placed.rpush ⟨_,rfl⟩⟩
  | zadd src key score member =>
    obtain ⟨job,rfl,_,rfl,_⟩ := hpre
    exact ⟨h.placed.zadd (.inl ⟨_,rfl⟩)⟩
  | reserve delayed ready leasePrefix nowMs transferBatch leaseMs token fresh =>
    obtain ⟨_,rfl,queue,rfl,rfl⟩ := hpre
    refine ⟨placed_reserveScript (h.placed.mono ?_) ⟨_,rfl⟩ ?_⟩
    · intro key hkey hlease
      obtain ⟨t,ht,rfl⟩ := hkey hlease
      exact ⟨t,List.mem_cons_of_mem _ ht,rfl⟩
    · exact fun _ => ⟨token,List.mem_cons_self,rfl⟩
  | getAndDelete key => exact ⟨placed_getAndDeleteScript h.placed⟩
  | transition lease ready delayed expected encoded runAtMs nowMs =>
    obtain ⟨_,⟨queue,rfl,rfl⟩,_⟩ := hpre
    exact ⟨placed_transitionLeaseScript h.placed ⟨_,rfl⟩ (.inl ⟨_,rfl⟩)⟩
  | pexpire key ms => exact ⟨h.placed.pexpire⟩
  | saveEntry entryKey val indexKey score id fresh =>
    obtain ⟨⟨queue,eid,rfl⟩,_⟩ := hpre
    refine ⟨((h.placed.mono ?_).set (by simp)).zadd (.inr rfl)⟩
    intro key hkey hlease
    obtain ⟨t,ht,rfl⟩ := hkey hlease
    exact ⟨t,List.mem_cons_of_mem _ ht,rfl⟩
  | removeEntry indexKey id entryKey => exact ⟨h.placed.zrem.del⟩

theorem get_lease_of_fresh {token : String} (h : Sound b s) (hfresh : token ∉ s.issued) :
    s.store.get (leaseKeyPrefix b ++ token) = none := by
  rw [← Option.not_isSome_iff_eq_none,Redis.Store.isSome_get_iff]
  rintro ⟨row,hrow,hkey⟩
  obtain ⟨t,ht,heq⟩ := h.placed.strings row hrow (by simp [hkey])
  rw [hkey,String.append_right_inj] at heq
  exact hfresh (heq ▸ ht)

section Scripts

variable {r : Redis.Store Text} {K : String → Bool} {p : Text → Bool}

theorem getAndDeleteScript_cases (r : Redis.Store Text) (key : String) :
    (r.get key = none ∧ getAndDeleteScript r key = (none,r)) ∨
      ∃ v, r.get key = some v ∧ getAndDeleteScript r key = (some v,r.del key) := by
  unfold getAndDeleteScript
  cases h : r.get key with
  | none => exact .inl ⟨rfl,rfl⟩
  | some v => exact .inr ⟨v,rfl,rfl⟩

theorem transitionLeaseScript_cases (r : Redis.Store Text) (lease ready delayed : String)
    (expected encoded : Text) (runAtMs nowMs : Int) :
    ((transitionLeaseScript r lease ready delayed expected encoded runAtMs nowMs).1 ≠ 1 ∧
      (transitionLeaseScript r lease ready delayed expected encoded runAtMs nowMs).2 = r) ∨
    (r.get lease = some expected ∧
      (transitionLeaseScript r lease ready delayed expected encoded runAtMs nowMs =
          (1,(r.del lease).rpush ready encoded) ∨
        transitionLeaseScript r lease ready delayed expected encoded runAtMs nowMs =
          (1,(r.del lease).zadd delayed runAtMs encoded))) := by
  unfold transitionLeaseScript
  cases h : r.get lease with
  | none => exact .inl ⟨by simp,rfl⟩
  | some current =>
    by_cases hc : current = expected
    · subst hc
      right
      by_cases hrun : runAtMs ≤ nowMs
      · exact ⟨rfl,.inl (by simp [hrun])⟩
      · exact ⟨rfl,.inr (by simp [hrun])⟩
    · exact .inl ⟨by simp [hc],by simp [hc]⟩

theorem live_reserveScript {delayed ready leasePrefix token : String}
    {nowMs transferBatch leaseMs : Int} (hfresh : r.get (leasePrefix ++ token) = none)
    (hlease : K (leasePrefix ++ token) = true) : (reserveScript textLe r delayed ready leasePrefix
      nowMs transferBatch leaseMs token).2.live K p = r.live K p := by
  unfold reserveScript
  dsimp only
  have hl := Redis.Store.live_transfer K p r delayed ready
    (r.zrangeByScore textLe delayed nowMs transferBatch.toNat)
    (Redis.Store.nodup_zrangeByScore r delayed textLe nowMs _)
    (fun v hv => Redis.Store.mem_zrangeByScore r delayed textLe nowMs _ hv)
  have hg := Redis.Store.get_transfer r delayed (leasePrefix ++ token) ready
    (r.zrangeByScore textLe delayed nowMs transferBatch.toNat)
  revert hl hg
  generalize List.foldl _ r _ = r'
  intro hl hg
  rw [← hl]
  split
  · rename_i r'' hr
    have hnone := Redis.Store.lpop_none r' ready (by rw [hr])
    rw [hr] at hnone
    exact congrArg (Redis.Store.live K p) hnone
  · rename_i payload r'' hr
    have hpop := Redis.Store.live_lpop K p r' ready payload (by rw [hr])
    have hget : r''.get (leasePrefix ++ token) = none := by
      have hsame : (r'.lpop ready).2.get (leasePrefix ++ token) = r'.get (leasePrefix ++ token) :=
        rfl
      rw [hr] at hsame
      rw [hsame,hg,hfresh]
    have hdel := Redis.Store.live_del K p r'' (leasePrefix ++ token)
    simp only [hr] at hpop
    simp only [hget,Option.elim_none] at hdel
    simp only [Redis.Store.setPX,Redis.Store.live_set,hlease,Bool.true_and]
    omega

theorem get_reserveScript {delayed ready leasePrefix token : String}
    {nowMs transferBatch leaseMs : Int} (q : String) (hq : q ≠ leasePrefix ++ token) :
    (reserveScript textLe r delayed ready leasePrefix nowMs transferBatch leaseMs token).2.get q =
      r.get q := by
  unfold reserveScript
  dsimp only
  have hg := Redis.Store.get_transfer r delayed q ready
    (r.zrangeByScore textLe delayed nowMs transferBatch.toNat)
  revert hg
  generalize List.foldl _ r _ = r'
  intro hg
  have hpop : (r'.lpop ready).2.get q = r'.get q := rfl
  rw [← hg,← hpop]
  split
  · rename_i r'' hr
    rw [hr]
  · rename_i payload r'' hr
    rw [hr,Redis.Store.setPX,Redis.Store.get_set,if_neg hq]

end Scripts

def Recorded (ev : Event Ans) (s : Server) : Prop :=
  match ev with
  | ⟨.rpush src key val,.ok _⟩ => .enqueued src key val ∈ s.effects
  | ⟨.zadd src key _ member,.ok _⟩ => .enqueued src key member ∈ s.effects
  | ⟨.transitionLeaseScript lease _ _ expected encoded _ _,.ok n⟩ =>
      n = 1 → .transitioned lease expected encoded ∈ s.effects
  | _ => True

theorem recorded_exec {ans : Ans op} (h : exec textLe s op o = some (ans,s')) :
    Recorded ⟨op,ans⟩ s' := by
  cases op with
  | rpush src key val =>
    cases o <;> simp only [exec,reply,Option.some.injEq,Prod.mk.injEq,reduceCtorEq] at h
    all_goals
      obtain ⟨rfl,rfl⟩ := h
      simp [Recorded]
  | zadd src key score member =>
    cases o <;> simp only [exec,reply,Option.some.injEq,Prod.mk.injEq,reduceCtorEq] at h
    all_goals
      obtain ⟨rfl,rfl⟩ := h
      simp [Recorded]
  | transitionLeaseScript lease ready delayed expected encoded runAtMs nowMs =>
    cases o <;> simp only [exec,reply,Option.some.injEq,Prod.mk.injEq,reduceCtorEq] at h
    all_goals
      obtain ⟨rfl,rfl⟩ := h
      simp only [Recorded]
    intro hone
    simp [hone]
  | _ => trivial

theorem recorded_mono {ev : Event Ans} (h : Recorded ev s) (hsub : s.effects ⊆ s'.effects) :
    Recorded ev s' := by
  unfold Recorded at h ⊢
  split
  · exact hsub h
  · exact hsub h
  · exact fun hn => hsub (h hn)
  · trivial

theorem recorded_of_run {cfg : Config} {acts : List Act} {c : State}
    (hrun : (system textLe cfg).run acts start = some c) :
    ∀ t ∈ c.threads, ∀ ev ∈ t.trace, Recorded ev c.shared := by
  refine Machine.run_trace_facts (m := system textLe cfg) (F := Recorded) ?_ ?_ ?_ ?_ hrun
  · exact fun s op x ans s' hx => recorded_exec hx
  · exact fun ev s op x ans s' hev hx =>
      recorded_mono hev (effects_suffix (executed_of_exec hx)).subset
  · exact fun ev s ms hev => recorded_mono hev (List.Subset.refl _)
  · simp [start]

end Nimburion.Jobs.RedisBackend
