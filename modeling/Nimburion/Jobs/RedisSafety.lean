import Nimburion.Jobs.RedisLeases

namespace Nimburion.Jobs.RedisBackend
open Interaction GoText GoTime

variable {textLe : Text → Text → Bool} {cfg b : Config} {s s' : Server} {op : Op}

def hasWork (w : Job.Work) (v : Text) : Bool := v.work = some w

def Acked (w : Job.Work) (s : Server) : Prop :=
  ∃ key val, Effect.acked key val ∈ s.effects ∧ val.work = some w

def Recoverable (b : Config) (w : Job.Work) (r : Redis.Store Text) : Prop :=
  (∃ queue, ∃ x ∈ r.lists, x.key = readyKey b queue ∧ x.val.work = some w) ∨
  (∃ queue, ∃ z ∈ r.zsets, z.key = delayedKey b queue ∧ z.member.work = some w) ∨
  (∃ token, ∃ x ∈ r.strings, x.key = leaseKeyPrefix b ++ token ∧ x.val.work = some w) ∨
  (∃ queue id, ∃ x ∈ r.strings, x.key = dlqEntryKey b queue id ∧ x.val.work = some w)

def Kept (b : Config) (w : Job.Work) (s : Server) : Prop :=
  Acked w s ∨ 0 < s.store.live (isLeaseKey b) (hasWork w)

structure Accounted (b : Config) (s : Server) : Prop extends Sound b s where
  kept : ∀ src key val, Effect.enqueued src key val ∈ s.effects →
    ∃ w, val.work = some w ∧ Kept b w s

theorem recoverable_of_live {w : Job.Work} (h : Sound b s)
    (hlive : 0 < s.store.live (isLeaseKey b) (hasWork w)) : Recoverable b w s.store := by
  simp only [Redis.Store.live,Nat.add_pos_iff_pos_or_pos,Redis.Store.listed,
    Redis.Store.scheduled,Redis.Store.stored,List.countP_pos_iff,hasWork,Bool.and_eq_true,
    decide_eq_true_eq] at hlive
  rcases hlive with (⟨x,hx,hw⟩ | ⟨z,hz,hw⟩) | ⟨x,hx,hkey,hw⟩
  · obtain ⟨queue,hq⟩ := h.placed.lists x hx
    exact .inl ⟨queue,x,hx,hq,hw⟩
  · rcases h.placed.zsets z hz with ⟨queue,hq⟩ | hnone
    · exact .inr (.inl ⟨queue,z,hz,hq,hw⟩)
    · simp [Text.work,hnone] at hw
  · obtain ⟨token,_,ht⟩ := h.placed.strings x hx hkey
    exact .inr (.inr (.inl ⟨token,x,hx,ht,hw⟩))

theorem acked_mono {w : Job.Work} (h : Acked w s) (hsub : s.effects ⊆ s'.effects) :
    Acked w s' := by
  obtain ⟨key,val,hmem,hw⟩ := h
  exact ⟨key,val,hsub hmem,hw⟩

theorem live_transition_pos {r : Redis.Store Text} {K : String → Bool} {p : Text → Bool}
    {lease ready delayed : String} {expected encoded : Text} {runAtMs nowMs : Int}
    (hp : p encoded = p expected) (hlive : 0 < r.live K p) :
    0 < (transitionLeaseScript r lease ready delayed expected encoded runAtMs nowMs).2.live K p := by
  have hdel := Redis.Store.live_del K p r lease
  rcases transitionLeaseScript_cases r lease ready delayed expected encoded runAtMs nowMs with
    ⟨_,hr⟩ | ⟨hget,hr | hr⟩
  · rw [hr]
    exact hlive
  · rw [hr,Redis.Store.live_rpush,hp]
    simp only [hget,Option.elim_some] at hdel
    cases hk : K lease <;> simp only [hk,Bool.true_and,Bool.false_and,Bool.toNat_false] at hdel <;>
      omega
  · simp only [hr]
    have hkeep := Redis.Store.live_le_zadd K p (r.del lease) delayed encoded runAtMs
    have hnew := Redis.Store.toNat_le_live_zadd K p (r.del lease) delayed encoded runAtMs
    rw [hp] at hnew
    simp only [hget,Option.elim_some] at hdel
    cases hpe : p expected <;> simp only [hpe,Bool.and_false,Bool.toNat_false,Bool.toNat_true]
      at hdel hnew <;> omega

theorem kept_executed {call : Call} {tr : Trace} {w : Job.Work} (h : Sound b s)
    (hpre : Permitted b call tr op) (hx : Executed textLe s op s') (hk : Kept b w s) :
    Kept b w s' := by
  rcases hk with hk | hlive
  · exact .inl (acked_mono hk (effects_suffix hx).subset)
  cases hx with
  | idle => exact .inr hlive
  | rpush src key val =>
    right
    rw [Redis.Store.live_rpush]
    omega
  | zadd src key score member =>
    exact .inr (lt_of_lt_of_le hlive (Redis.Store.live_le_zadd _ _ _ _ _ _))
  | reserve delayed ready leasePrefix nowMs transferBatch leaseMs token fresh =>
    obtain ⟨_,rfl,queue,rfl,rfl⟩ := hpre
    right
    rw [live_reserveScript (get_lease_of_fresh h fresh) (isLeaseKey_append token)]
    exact hlive
  | getAndDelete key =>
    rcases getAndDeleteScript_cases s.store key with ⟨_,hr⟩ | ⟨v,hget,hr⟩
    · right
      rw [hr]
      exact hlive
    · by_cases hw : v.work = some w
      · exact .inl ⟨key,v,by simp [hr],hw⟩
      · right
        have hdel := Redis.Store.live_del (isLeaseKey b) (hasWork w) s.store key
        simp only [hget,Option.elim_some,hasWork,hw,decide_false,Bool.and_false,
          Bool.toNat_false] at hdel
        rw [hr]
        exact lt_of_lt_of_eq hlive hdel.symm
  | transition lease ready delayed expected encoded runAtMs nowMs =>
    obtain ⟨_,_,job,job',hjob,rfl,hwork⟩ := hpre
    right
    refine live_transition_pos ?_ hlive
    have hsame : Text.work (.envelope (some job')) = expected.work := by
      rw [Text.work,Text.work,hjob]
      exact congrArg some hwork
    rw [hasWork,hasWork,hsame]
  | pexpire key ms =>
    right
    rw [Redis.Store.live_pexpire]
    exact hlive
  | saveEntry entryKey val indexKey score id fresh =>
    obtain ⟨⟨queue,eid,rfl⟩,_⟩ := hpre
    right
    refine lt_of_lt_of_le ?_ (Redis.Store.live_le_zadd _ _ _ _ _ _)
    rw [Redis.Store.live_set,Redis.Store.live_del_of_not _ _ _ _ (isLeaseKey_dlqEntryKey _ _)]
    omega
  | removeEntry indexKey id entryKey =>
    obtain ⟨_,queue,eid,rfl⟩ := hpre
    right
    rw [Redis.Store.live_del_of_not _ _ _ _ (isLeaseKey_dlqEntryKey _ _),
      Redis.Store.live_zrem_of_not _ _ _ _ _ rfl]
    exact hlive

theorem effects_eq_of_new {src : Source} {key : String} {val : Text}
    (hx : Executed textLe s op s') (hmem : Effect.enqueued src key val ∈ s'.effects)
    (hnew : Effect.enqueued src key val ∉ s.effects) :
    s'.effects = .enqueued src key val :: s.effects := by
  rcases effects_executed hx with he | ⟨src',key',val',_,he⟩ | ⟨key',v,he⟩ | ⟨key',v,v',he⟩
  · exact absurd (he ▸ hmem) hnew
  all_goals
    rw [he] at hmem
    rcases List.mem_cons.mp hmem with heq | hold
    · rw [he,heq]
    · exact absurd hold hnew

theorem accounted_executed {call : Call} {tr : Trace} (h : Accounted b s)
    (hpre : Permitted b call tr op) (hx : Executed textLe s op s') : Accounted b s' := by
  refine ⟨sound_executed h.toSound hpre hx,?_⟩
  intro src key val hmem
  by_cases hold : Effect.enqueued src key val ∈ s.effects
  · obtain ⟨w,hw,hk⟩ := h.kept src key val hold
    exact ⟨w,hw,kept_executed h.toSound hpre hx hk⟩
  · rcases pushed_of_effects hx (effects_eq_of_new hx hmem hold) with ⟨rfl,hstore⟩ | ⟨score,rfl,hstore⟩
    · obtain ⟨job,rfl,_⟩ := hpre
      refine ⟨job.work,rfl,.inr ?_⟩
      have hwork : hasWork job.work (.envelope (some job)) = true := by
        simp [hasWork,Text.work,Text.job?,Text.unmarshalEnvelope]
      rw [hstore,Redis.Store.live_rpush,hwork]
      simp
    · obtain ⟨job,rfl,_⟩ := hpre
      refine ⟨job.work,rfl,.inr ?_⟩
      have hwork : hasWork job.work (.envelope (some job)) = true := by
        simp [hasWork,Text.work,Text.job?,Text.unmarshalEnvelope]
      have hpos := Redis.Store.toNat_le_live_zadd (isLeaseKey b) (hasWork job.work) s.store key
        (.envelope (some job)) score
      rw [hwork] at hpos
      rw [hstore]
      exact hpos

def NoLeaseExpiry (b : Config) (c : State) : Act → Prop
  | .env ms => ∀ x ∈ c.shared.store.strings, isLeaseKey b x.key = true →
      Redis.Store.expired (c.shared.store.clock+ms) x = false
  | _ => True

instance (b : Config) (c : State) : (a : Act) → Decidable (NoLeaseExpiry b c a)
  | .env ms => inferInstanceAs (Decidable (∀ x ∈ c.shared.store.strings,
      isLeaseKey b x.key = true → Redis.Store.expired (c.shared.store.clock+ms) x = false))
  | .start _ => .isTrue trivial
  | .exec _ _ => .isTrue trivial
  | .crash _ => .isTrue trivial

theorem accounted_tick {ms : ℕ} {c : State} (h : Accounted b c.shared)
    (hno : NoLeaseExpiry b c (.env ms)) :
    Accounted b { c.shared with store := c.shared.store.tick ms } := by
  refine ⟨sound_tick h.toSound ms,?_⟩
  intro src key val hmem
  obtain ⟨w,hw,hk⟩ := h.kept src key val hmem
  refine ⟨w,hw,?_⟩
  rcases hk with hk | hlive
  · exact .inl hk
  · right
    rw [Redis.Store.live_tick _ _ _ _ hno]
    exact hlive

def NoLostJob (cfg : Config) (c : State) : Prop :=
  ∀ t ∈ c.threads, ∀ j, t.call = .enqueue j → t.rest = .ret .nil →
    ∃ job, Stamped j job ∧
      (Recoverable cfg.normalize job.work c.shared.store ∨ Acked job.work c.shared)

theorem accounted_empty : Accounted b .empty :=
  ⟨sound_empty,fun src key val h => by simp [Server.empty] at h⟩

theorem noLostJob_of_no_lease_expiry {acts : List Act} {c : State}
    (hrun : (system textLe cfg).run acts start = some c)
    (hlease : (system textLe cfg).Along (NoLeaseExpiry cfg.normalize) acts start) :
    NoLostJob cfg c := by
  obtain ⟨hacc,hmeet⟩ := Machine.run_shared_invariant (m := system textLe cfg)
    (J := Accounted cfg.normalize) (S := discipline cfg.normalize) (program_meets cfg.normalize)
    (fun c i x t op ans s' hJ _ _ hpre hx =>
      ⟨trivial,accounted_executed hJ hpre (executed_of_exec hx)⟩)
    (fun c ms hJ hno => accounted_tick hJ hno) accounted_empty (by simp [Machine.ThreadsMeet,start])
    hlease hrun
  intro t ht j hcall hret
  have hres := hmeet t ht
  rw [hcall,hret] at hres
  obtain ⟨job,hstamped,key,hpushed⟩ := hres
  have hrec := recorded_of_run hrun t ht
  have heffect : Effect.enqueued .client key (.envelope (some job)) ∈ c.shared.effects := by
    rcases hpushed with hmem | ⟨score,hmem⟩
    · exact hrec _ hmem
    · exact hrec _ hmem
  obtain ⟨w,hw,hk⟩ := hacc.kept _ _ _ heffect
  cases hw
  refine ⟨job,hstamped,?_⟩
  rcases hk with hk | hlive
  · exact .inr hk
  · exact .inl (recoverable_of_live hacc.toSound hlive)

def anyOrder : Text → Text → Bool := fun _ _ => true

def emptyConfig : Config := ⟨"","",0⟩

def mailJob : Job := ⟨"j1","mail","q",[1],∅,"","","","","",0,0,3,0⟩

def enqueueMail : List Act :=
  [.start (.enqueue mailJob),.exec 0 .done,.exec 0 (.at second),.exec 0 .done]

def reserveFrom (i : ℕ) (queue token : String) : List Act :=
  [.start (.reserve queue (30*second) .contextCanceled 1),.exec i .done,.exec i (.token token),
    .exec i (.at (2*second)),.exec i .done]

def reserveMail : List Act := reserveFrom 1 "q" "a1"

theorem noLostJob_of_no_lease_expiry_within_ttl : ∃ c,
    (system anyOrder emptyConfig).run (enqueueMail ++ reserveMail ++ [.crash 1,.env 30000]) start =
      some c ∧ NoLostJob emptyConfig c := by
  obtain ⟨c,hc⟩ := Option.isSome_iff_exists.mp (by decide +kernel : ((system anyOrder
    emptyConfig).run (enqueueMail ++ reserveMail ++ [.crash 1,.env 30000]) start).isSome = true)
  exact ⟨c,hc,noLostJob_of_no_lease_expiry hc (by decide +kernel)⟩

def returnedNil (j : Job) (t : Thread Ans GoError Call Reply) : Bool :=
  t.call = .enqueue j && match t.rest with
    | .ret .nil => true
    | _ => false

theorem returnedNil_iff {j : Job} {t : Thread Ans GoError Call Reply}
    (h : returnedNil j t = true) : t.call = .enqueue j ∧ t.rest = .ret .nil := by
  simp only [returnedNil,Bool.and_eq_true,decide_eq_true_eq] at h
  refine ⟨h.1,?_⟩
  have h2 := h.2
  split at h2
  · assumption
  · simp at h2

theorem expired_lease_loses_job : ∃ c,
    (system anyOrder emptyConfig).run (enqueueMail ++ reserveMail ++ [.env 30001]) start =
      some c ∧ ¬ NoLostJob emptyConfig c := by
  have hrun : ((system anyOrder emptyConfig).run (enqueueMail ++ reserveMail ++ [.env 30001])
      start).any (fun c => c.shared.store.lists.isEmpty && c.shared.store.zsets.isEmpty &&
        c.shared.store.strings.isEmpty && c.threads.any (returnedNil mailJob) &&
        c.shared.effects.all fun e => match e with
          | .acked .. => false
          | _ => true) = true := by decide +kernel
  obtain ⟨c,hc,hfacts⟩ := (Option.any_eq_true _ _).mp hrun
  refine ⟨c,hc,?_⟩
  simp only [Bool.and_eq_true,List.isEmpty_iff,List.any_eq_true,List.all_eq_true] at hfacts
  obtain ⟨⟨⟨⟨hlists,hzsets⟩,hstrings⟩,t,ht,hnil⟩,hacked⟩ := hfacts
  intro hno
  obtain ⟨hcall,hret⟩ := returnedNil_iff hnil
  obtain ⟨job,_,hlost | ⟨key,val,hmem,_⟩⟩ := hno t ht mailJob hcall hret
  · simp [Recoverable,hlists,hzsets,hstrings] at hlost
  · exact absurd (hacked _ hmem) (by simp)

def isAck (key : String) : Effect → Bool
  | .acked k _ => k = key
  | _ => false

def isFollowUp (key : String) : Effect → Bool
  | .transitioned k _ _ => k = key
  | _ => false

def settlements (key : String) (effects : List Effect) : ℕ :=
  effects.countP (isAck key) + effects.countP (isFollowUp key)

structure SettledOnce (b : Config) (s : Server) : Prop extends Sound b s where
  once : ∀ key, isLeaseKey b key = true →
    settlements key s.effects + (s.store.get key).isSome.toNat ≤ 1
  issued : ∀ key, isLeaseKey b key = true → 0 < settlements key s.effects →
    ∃ token ∈ s.issued, key = leaseKeyPrefix b ++ token

theorem settledOnce_empty : SettledOnce b .empty :=
  ⟨sound_empty,fun _ _ => by simp [Server.empty,settlements,Redis.Store.empty,Redis.Store.get],
    fun _ _ h => by simp [Server.empty,settlements] at h⟩

@[simp] theorem settlements_enqueued (key : String) (src : Source) (k : String) (v : Text)
    (es : List Effect) : settlements key (.enqueued src k v :: es) = settlements key es := by
  simp [settlements,isAck,isFollowUp]

theorem settlements_acked (key k : String) (v : Text) (es : List Effect) :
    settlements key (.acked k v :: es) = settlements key es + (decide (k = key)).toNat := by
  simp only [settlements,List.countP_cons,isAck,isFollowUp]
  by_cases hk : k = key <;> simp [hk]
  omega

theorem settlements_transitioned (key k : String) (v v' : Text) (es : List Effect) :
    settlements key (.transitioned k v v' :: es) =
      settlements key es + (decide (k = key)).toNat := by
  simp only [settlements,List.countP_cons,isAck,isFollowUp]
  by_cases hk : k = key <;> simp [hk]
  omega

-- a settlement takes the lease key away, so the sum of the two never grows
theorem settle_le {key k : String} {r : Redis.Store Text} {n : ℕ} {v : Text}
    (hget : r.get k = some v) (hn : n + (r.get key).isSome.toNat ≤ 1) :
    n + (decide (k = key)).toNat + ((r.del k).get key).isSome.toNat ≤ 1 := by
  rw [Redis.Store.get_del]
  by_cases hk : k = key
  · subst hk
    simp only [hget,Option.isSome_some,Bool.toNat_true] at hn
    simp
    omega
  · simpa [hk,Ne.symm hk] using hn

theorem issued_of_settle {key k : String} {v : Text} (h : SettledOnce b s)
    (hkey : isLeaseKey b key = true) (hget : s.store.get k = some v)
    (hpos : 0 < settlements key s.effects + (decide (k = key)).toNat) :
    ∃ token ∈ s.issued, key = leaseKeyPrefix b ++ token := by
  by_cases hk : k = key
  · subst hk
    obtain ⟨x,hx,rfl⟩ := (Redis.Store.isSome_get_iff s.store k).mp (by simp [hget])
    exact h.placed.strings x hx hkey
  · exact h.issued key hkey (by simpa [hk] using hpos)

theorem once_executed {call : Call} {tr : Trace} (h : SettledOnce b s)
    (hpre : Permitted b call tr op) (hx : Executed textLe s op s') (key : String)
    (hkey : isLeaseKey b key = true) :
    settlements key s'.effects + (s'.store.get key).isSome.toNat ≤ 1 := by
  have hold := h.once key hkey
  cases hx with
  | idle => exact hold
  | rpush | zadd => simpa [Redis.Store.get,Redis.Store.rpush,Redis.Store.zadd] using hold
  | reserve delayed ready leasePrefix nowMs transferBatch leaseMs token fresh =>
    obtain ⟨_,rfl,_⟩ := hpre
    by_cases hq : key = leaseKeyPrefix b ++ token
    · have hzero : settlements key s.effects = 0 := by
        by_contra hne
        obtain ⟨t,ht,heq⟩ := h.issued key hkey (Nat.pos_of_ne_zero hne)
        rw [hq,String.append_right_inj] at heq
        exact fresh (heq ▸ ht)
      have hbit := Bool.toNat_le ((reserveScript textLe s.store delayed ready (leaseKeyPrefix b)
        nowMs transferBatch leaseMs token).2.get key).isSome
      dsimp only
      omega
    · rw [get_reserveScript key hq]
      exact hold
  | getAndDelete k =>
    rcases getAndDeleteScript_cases s.store k with ⟨_,hr⟩ | ⟨v,hget,hr⟩
    · simpa [hr] using hold
    · simp only [hr,Option.map_some,Option.toList_some,List.singleton_append,
        settlements_acked]
      exact settle_le hget hold
  | transition lease ready delayed expected encoded runAtMs nowMs =>
    rcases transitionLeaseScript_cases s.store lease ready delayed expected encoded runAtMs nowMs
      with ⟨hne,hr⟩ | ⟨hget,hr | hr⟩
    · simpa [hne,hr] using hold
    all_goals
      simp only [hr,if_pos,List.singleton_append,settlements_transitioned]
      exact settle_le hget hold
  | pexpire k ms =>
    rw [Redis.Store.get_pexpire]
    exact hold
  | saveEntry entryKey val indexKey score id fresh =>
    obtain ⟨⟨queue,eid,rfl⟩,_⟩ := hpre
    have hne : key ≠ dlqEntryKey b queue eid := by
      rintro rfl
      simp at hkey
    have hsame : (Redis.Store.zadd (s.store.set (dlqEntryKey b queue eid) val none) indexKey
      score (.raw id)).get key = s.store.get key :=
      (Redis.Store.get_set _ _ _ key none).trans (if_neg hne)
    rw [hsame]
    exact hold
  | removeEntry indexKey id entryKey =>
    rw [Redis.Store.get_del]
    split_ifs
    · simp only [Option.isSome_none,Bool.toNat_false]
      omega
    · exact hold

theorem issued_executed (h : SettledOnce b s) (hx : Executed textLe s op s') (key : String)
    (hkey : isLeaseKey b key = true) (hpos : 0 < settlements key s'.effects) :
    ∃ token ∈ s'.issued, key = leaseKeyPrefix b ++ token := by
  cases hx with
  | idle | pexpire | removeEntry => exact h.issued key hkey hpos
  | rpush | zadd => exact h.issued key hkey (by simpa using hpos)
  | reserve delayed ready leasePrefix nowMs transferBatch leaseMs token fresh =>
    obtain ⟨t,ht,heq⟩ := h.issued key hkey hpos
    exact ⟨t,List.mem_cons_of_mem _ ht,heq⟩
  | saveEntry entryKey val indexKey score id fresh =>
    obtain ⟨t,ht,heq⟩ := h.issued key hkey hpos
    exact ⟨t,List.mem_cons_of_mem _ ht,heq⟩
  | getAndDelete k =>
    rcases getAndDeleteScript_cases s.store k with ⟨_,hr⟩ | ⟨v,hget,hr⟩
    · exact h.issued key hkey (by simpa [hr] using hpos)
    · simp only [hr,Option.map_some,Option.toList_some,List.singleton_append,
        settlements_acked] at hpos
      have hissued := issued_of_settle h hkey hget hpos
      exact hissued
  | transition lease ready delayed expected encoded runAtMs nowMs =>
    rcases transitionLeaseScript_cases s.store lease ready delayed expected encoded runAtMs nowMs
      with ⟨hne,hr⟩ | ⟨hget,hr | hr⟩
    · exact h.issued key hkey (by simpa [hne] using hpos)
    all_goals
      simp only [hr,if_pos,List.singleton_append,settlements_transitioned] at hpos
      have hissued := issued_of_settle h hkey hget hpos
      exact hissued

theorem settledOnce_executed {call : Call} {tr : Trace} (h : SettledOnce b s)
    (hpre : Permitted b call tr op) (hx : Executed textLe s op s') : SettledOnce b s' :=
  ⟨sound_executed h.toSound hpre hx,once_executed h hpre hx,issued_executed h hx⟩

theorem settledOnce_tick {ms : ℕ} (h : SettledOnce b s) :
    SettledOnce b { s with store := s.store.tick ms } := by
  refine ⟨sound_tick h.toSound ms,?_,h.issued⟩
  intro key hkey
  have hold := h.once key hkey
  have htick := Redis.Store.isSome_get_tick s.store key ms
  cases hnew : ((s.store.tick ms).get key).isSome with
  | false =>
    simp only [Bool.toNat_false]
    omega
  | true => simpa [htick hnew] using hold

theorem settledOnce_of_run {acts : List Act} {c : State}
    (hrun : (system textLe cfg).run acts start = some c) :
    SettledOnce cfg.normalize c.shared ∧
      Machine.ThreadsMeet (discipline cfg.normalize) (result cfg.normalize) c :=
  Machine.run_shared_invariant (m := system textLe cfg) (J := SettledOnce cfg.normalize)
    (program_meets cfg.normalize)
    (fun _ _ _ _ _ _ _ hJ _ _ hpre hx =>
      ⟨trivial,settledOnce_executed hJ hpre (executed_of_exec hx)⟩)
    (fun _ _ hJ _ => settledOnce_tick hJ) settledOnce_empty (by simp [Machine.ThreadsMeet,start])
    (Machine.along_true _ acts start) hrun

theorem settles_unique {call : Call} {l l' : Lease} (h : Settles call l) (h' : Settles call l') :
    l = l' := by
  rcases h with ⟨t,r,rfl⟩ | ⟨r,rfl⟩
  · rcases h' with ⟨t',r',heq⟩ | ⟨r',heq⟩ <;> cases heq
    rfl
  · rcases h' with ⟨t',r',heq⟩ | ⟨r',heq⟩ <;> cases heq
    rfl

theorem origin_not_settles {call : Call} {tr : Trace} {job : Job} {src : Source} {l : Lease}
    (h : Origin call tr job src) : ¬ Settles call l := by
  cases src with
  | client =>
    obtain ⟨j,rfl,_⟩ := h
    simp [Settles]
  | replay key =>
    obtain ⟨⟨queue,ids,rfl⟩,_⟩ := h
    simp [Settles]

theorem followUps_eq_zero {key : String} {v : Text} (h : SettledOnce b s)
    (hkey : isLeaseKey b key = true) (hack : Effect.acked key v ∈ s.effects) :
    s.effects.countP (isFollowUp key) = 0 ∧ s.store.get key = none := by
  have honce := h.once key hkey
  have hpos : 0 < s.effects.countP (isAck key) :=
    List.countP_pos_iff.mpr ⟨_,hack,by simp [isAck]⟩
  unfold settlements at honce
  refine ⟨by omega,?_⟩
  cases hget : s.store.get key with
  | none => rfl
  | some v => simp only [hget,Option.isSome_some,Bool.toNat_true] at honce; omega

theorem not_transitioned {key : String} {tr : Trace} (hzero : s.effects.countP (isFollowUp key) = 0)
    (hrec : ∀ ev ∈ tr, Recorded ev s) : ¬ Transitioned key tr := by
  rintro ⟨ready,delayed,expected,encoded,runAtMs,nowMs,hmem⟩
  have heffect : Effect.transitioned key expected encoded ∈ s.effects := hrec _ hmem rfl
  exact List.countP_eq_zero.mp hzero _ heffect (by simp [isFollowUp])

theorem settling_step_idle {call : Call} {tr : Trace} {lease : Lease} {v : Text}
    (h : SettledOnce b s) (hcall : Settles call lease)
    (hack : Effect.acked (leaseKey b lease.token) v ∈ s.effects)
    (hrec : ∀ ev ∈ tr, Recorded ev s) (hpre : Permitted b call tr op)
    (hx : Executed textLe s op s') :
    s'.store.lists = s.store.lists ∧ s'.store.zsets = s.store.zsets := by
  obtain ⟨hzero,hget⟩ := followUps_eq_zero h (isLeaseKey_leaseKey lease.token) hack
  cases hx with
  | idle => exact ⟨rfl,rfl⟩
  | rpush src key val =>
    obtain ⟨job,_,_,_,horigin⟩ := hpre
    exact absurd hcall (origin_not_settles horigin)
  | zadd src key score member =>
    obtain ⟨job,_,_,_,horigin⟩ := hpre
    exact absurd hcall (origin_not_settles horigin)
  | reserve =>
    obtain ⟨⟨queue,leaseFor,ctxErr,rounds,rfl⟩,_⟩ := hpre
    simp [Settles] at hcall
  | getAndDelete key =>
    rcases getAndDeleteScript_cases s.store key with ⟨_,hr⟩ | ⟨v,_,hr⟩ <;> rw [hr] <;>
      exact ⟨rfl,rfl⟩
  | transition k ready delayed expected encoded runAtMs nowMs =>
    obtain ⟨⟨l,hl,rfl⟩,_⟩ := hpre
    rw [settles_unique hl hcall]
    rcases transitionLeaseScript_cases s.store (leaseKey b lease.token) ready delayed expected
      encoded runAtMs nowMs with ⟨_,hr⟩ | ⟨hsome,_⟩
    · rw [hr]
      exact ⟨rfl,rfl⟩
    · rw [hget] at hsome
      cases hsome
  | pexpire key ms =>
    unfold Redis.Store.pexpire
    split <;> exact ⟨rfl,rfl⟩
  | saveEntry =>
    obtain ⟨_,l,hl,htrans⟩ := hpre
    rw [settles_unique hl hcall] at htrans
    exact absurd htrans (not_transitioned hzero hrec)
  | removeEntry =>
    obtain ⟨⟨queue,ids,rfl⟩,_⟩ := hpre
    simp [Settles] at hcall

-- one payload is put, on the end of a list or into a sorted set
def PutsOne (r r' : Redis.Store Text) (encoded : Text) : Prop :=
  (∃ ready, r'.lists = (r.rpush ready encoded).lists ∧ r'.zsets = r.zsets) ∨
  ∃ delayed score, r'.lists = r.lists ∧ r'.zsets = (r.zadd delayed score encoded).zsets

-- no payload is put anywhere, though the id of a dead-letter entry may be indexed
def PutsNone (r r' : Redis.Store Text) : Prop :=
  r'.lists = r.lists ∧ (r'.zsets = r.zsets ∨
    ∃ indexKey score id, r'.zsets = (r.zadd indexKey score (.raw id)).zsets)

theorem settling_step_pushes {call : Call} {tr : Trace} {lease : Lease}
    (hcall : Settles call lease) (hpre : Permitted b call tr op) (hx : Executed textLe s op s') :
    (s'.effects.countP (isFollowUp (leaseKey b lease.token)) =
      s.effects.countP (isFollowUp (leaseKey b lease.token)) ∧ PutsNone s.store s'.store) ∨
    (s'.effects.countP (isFollowUp (leaseKey b lease.token)) =
      s.effects.countP (isFollowUp (leaseKey b lease.token)) + 1 ∧
      ∃ encoded, PutsOne s.store s'.store encoded) := by
  cases hx with
  | idle => exact .inl ⟨rfl,rfl,.inl rfl⟩
  | rpush src key val =>
    obtain ⟨job,_,_,_,horigin⟩ := hpre
    exact absurd hcall (origin_not_settles horigin)
  | zadd src key score member =>
    obtain ⟨job,_,_,_,horigin⟩ := hpre
    exact absurd hcall (origin_not_settles horigin)
  | reserve =>
    obtain ⟨⟨queue,leaseFor,ctxErr,rounds,rfl⟩,_⟩ := hpre
    simp [Settles] at hcall
  | getAndDelete key =>
    rcases getAndDeleteScript_cases s.store key with ⟨_,hr⟩ | ⟨v,_,hr⟩
    · rw [hr]
      exact .inl ⟨rfl,rfl,.inl rfl⟩
    · rw [hr]
      exact .inl ⟨by simp [isFollowUp],rfl,.inl rfl⟩
  | transition k ready delayed expected encoded runAtMs nowMs =>
    obtain ⟨⟨l,hl,rfl⟩,_⟩ := hpre
    rw [settles_unique hl hcall]
    rcases transitionLeaseScript_cases s.store (leaseKey b lease.token) ready delayed expected
      encoded runAtMs nowMs with ⟨hne,hr⟩ | ⟨_,hr | hr⟩
    · rw [if_neg hne,hr]
      exact .inl ⟨rfl,rfl,.inl rfl⟩
    · rw [hr]
      exact .inr ⟨by simp [isFollowUp],encoded,.inl ⟨ready,rfl,rfl⟩⟩
    · rw [hr]
      exact .inr ⟨by simp [isFollowUp],encoded,.inr ⟨delayed,runAtMs,rfl,rfl⟩⟩
  | pexpire key ms =>
    unfold Redis.Store.pexpire
    split <;> exact .inl ⟨rfl,rfl,.inl rfl⟩
  | saveEntry entryKey val indexKey score id =>
    exact .inl ⟨rfl,rfl,.inr ⟨indexKey,score,id,rfl⟩⟩
  | removeEntry =>
    obtain ⟨⟨queue,ids,rfl⟩,_⟩ := hpre
    simp [Settles] at hcall

theorem lease_settled_once {acts : List Act} {c : State}
    (hrun : (system textLe cfg).run acts start = some c) (token : String) :
    c.shared.effects.countP (isFollowUp (leaseKey cfg.normalize token)) ≤ 1 ∧
    ((∃ v, Effect.acked (leaseKey cfg.normalize token) v ∈ c.shared.effects) →
      c.shared.effects.countP (isFollowUp (leaseKey cfg.normalize token)) = 0 ∧
      (∀ t ∈ c.threads, ∀ lease, Settles t.call lease → trimSpace lease.token = trimSpace token →
        ∀ r, t.rest ≠ .ret r) ∧
      ∀ i x c' t lease, c.threads[i]? = some t → Settles t.call lease →
        trimSpace lease.token = trimSpace token →
        (system textLe cfg).step c (.exec i x) = some c' →
        c'.shared.store.lists = c.shared.store.lists ∧
          c'.shared.store.zsets = c.shared.store.zsets) ∧
    -- what a settling call puts into a queue and what is counted as a follow-up are one and the same
    ∀ i x c' t lease, c.threads[i]? = some t → Settles t.call lease →
      trimSpace lease.token = trimSpace token →
      (system textLe cfg).step c (.exec i x) = some c' →
      (c'.shared.effects.countP (isFollowUp (leaseKey cfg.normalize token)) =
        c.shared.effects.countP (isFollowUp (leaseKey cfg.normalize token)) ∧
        PutsNone c.shared.store c'.shared.store) ∨
      (c'.shared.effects.countP (isFollowUp (leaseKey cfg.normalize token)) =
        c.shared.effects.countP (isFollowUp (leaseKey cfg.normalize token)) + 1 ∧
        ∃ encoded, PutsOne c.shared.store c'.shared.store encoded) := by
  obtain ⟨hset,hmeet⟩ := settledOnce_of_run hrun
  have hrec := recorded_of_run hrun
  have hkeys : ∀ lease : Lease, trimSpace lease.token = trimSpace token →
      leaseKey cfg.normalize lease.token = leaseKey cfg.normalize token := by
    intro lease htok
    rw [leaseKey,leaseKey,htok]
  have hstep : ∀ {i x c' t}, c.threads[i]? = some t →
      (system textLe cfg).step c (.exec i x) = some c' → ∃ op, Permitted cfg.normalize t.call t.trace op ∧
        Executed textLe c.shared op c'.shared := by
    intro i x c' t ht hs
    obtain ⟨t',op,k,ans,s',ht',_,hrest,hx,rfl⟩ := Machine.exec_cases _ hs
    cases ht.symm.trans ht'
    have hm := hmeet t (List.mem_of_getElem? ht)
    rw [hrest] at hm
    exact ⟨op,hm.1,executed_of_exec hx⟩
  refine ⟨?_,?_,?_⟩
  · have honce := hset.once _ (isLeaseKey_leaseKey token)
    unfold settlements at honce
    omega
  · rintro ⟨v,hack⟩
    have hzero := (followUps_eq_zero hset (isLeaseKey_leaseKey token) hack).1
    refine ⟨hzero,?_,?_⟩
    · intro t ht lease hcall htok r hret
      have hres := hmeet t ht
      rw [hret] at hres
      refine not_transitioned hzero (hrec t ht) ?_
      rw [← hkeys lease htok]
      rcases hcall with ⟨nextRunAt,reason,hc⟩ | ⟨reason,hc⟩
      · rw [hc] at hres
        exact hres
      · rw [hc] at hres
        exact hres
    · intro i x c' t lease ht hcall htok hs
      obtain ⟨op,hpermitted,hexecuted⟩ := hstep ht hs
      rw [← hkeys lease htok] at hack
      exact settling_step_idle hset hcall hack (hrec t (List.mem_of_getElem? ht)) hpermitted hexecuted
  · intro i x c' t lease ht hcall htok hs
    obtain ⟨op,hpermitted,hexecuted⟩ := hstep ht hs
    rw [← hkeys lease htok]
    exact settling_step_pushes hcall hpermitted hexecuted

def ackDuringNack : List Act :=
  [.start (.nack (tokenLease "a1") (3*second) none),.exec 2 .done,.exec 2 .done,
    .exec 2 (.at (3*second)),.exec 2 .done,.exec 2 (.at (3*second)),
    .start (.ack (tokenLease "a1")),.exec 3 .done,.exec 3 .done,.exec 2 .done]

theorem lease_settled_once_ack_during_nack : ∃ c,
    (system anyOrder emptyConfig).run (enqueueMail ++ reserveMail ++ ackDuringNack) start =
      some c ∧
    (∃ v, Effect.acked (leaseKey emptyConfig.normalize "a1") v ∈ c.shared.effects) ∧
    c.shared.effects.countP (isFollowUp (leaseKey emptyConfig.normalize "a1")) = 0 := by
  have hrun : ((system anyOrder emptyConfig).run (enqueueMail ++ reserveMail ++ ackDuringNack)
      start).any (fun c => c.shared.effects.any (isAck (leaseKey emptyConfig.normalize "a1"))) =
        true := by decide +kernel
  obtain ⟨c,hc,hack⟩ := (Option.any_eq_true _ _).mp hrun
  obtain ⟨e,he,hk⟩ := List.any_eq_true.mp hack
  cases e with
  | acked key v =>
    have hkey : key = leaseKey emptyConfig.normalize "a1" := by simpa [isAck] using hk
    subst hkey
    exact ⟨c,hc,⟨v,he⟩,((lease_settled_once hc "a1").2.1 ⟨v,he⟩).1⟩
  | enqueued => simp [isAck] at hk
  | transitioned => simp [isAck] at hk

end Nimburion.Jobs.RedisBackend
