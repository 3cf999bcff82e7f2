import Nimburion.Jobs.RedisSafety

namespace Nimburion.Jobs.RedisBackend
open Interaction GoText GoTime

variable {textLe : Text → Text → Bool} {cfg b : Config} {s s' : Server} {op : Op}

abbrev Worker := Thread Ans GoError Call Reply

def copyID (v : Text) : Option String := v.job?.map Job.id

def hasID (id : String) (v : Text) : Bool := copyID v = some id

def ackOf (id : String) : Effect → Bool
  | .acked _ v => hasID id v
  | _ => false

def enqueueOf (id : String) : Effect → Bool
  | .enqueued .client _ v => hasID id v
  | _ => false

def replayOf (id : String) : Effect → Bool
  | .enqueued (.replay _) _ v => hasID id v
  | _ => false

def acks (id : String) (s : Server) : ℕ := s.effects.countP (ackOf id)

def enqueues (id : String) (s : Server) : ℕ := s.effects.countP (enqueueOf id)

def replays (id : String) (s : Server) : ℕ := s.effects.countP (replayOf id)

def copies (b : Config) (id : String) (s : Server) : ℕ :=
  s.store.live (isLeaseKey b) (hasID id)

theorem pushed_enqueued (id : String) (src : Source) (key : String) (v : Text) (es : List Effect) :
    (Effect.enqueued src key v :: es).countP (enqueueOf id) +
      (Effect.enqueued src key v :: es).countP (replayOf id) =
    es.countP (enqueueOf id) + es.countP (replayOf id) + (hasID id v).toNat := by
  rw [Machine.countP_cons_toNat,Machine.countP_cons_toNat]
  cases src <;> simp only [enqueueOf,replayOf,Bool.toNat_false] <;> omega

theorem acked_counts (id : String) (key : String) (v : Text) (es : List Effect) :
    (Effect.acked key v :: es).countP (ackOf id) = es.countP (ackOf id) + (hasID id v).toNat :=
  Machine.countP_cons_toNat (ackOf id) _ es

theorem live_transition_le {r : Redis.Store Text} {K : String → Bool} {p : Text → Bool}
    {lease ready delayed : String} {expected encoded : Text} {runAtMs nowMs : Int}
    (hp : p encoded = p expected) (hk : K lease = true) :
    (transitionLeaseScript r lease ready delayed expected encoded runAtMs nowMs).2.live K p ≤
      r.live K p := by
  have hdel := Redis.Store.live_del K p r lease
  rcases transitionLeaseScript_cases r lease ready delayed expected encoded runAtMs nowMs with
    ⟨_,hr⟩ | ⟨hget,hr | hr⟩
  · rw [hr]
  · simp only [hget,Option.elim_some,hk,Bool.true_and] at hdel
    simp only [hr,Redis.Store.live_rpush,hp]
    omega
  · have hadd := Redis.Store.live_zadd_le K p (r.del lease) delayed encoded runAtMs
    simp only [hget,Option.elim_some,hk,Bool.true_and] at hdel
    rw [hp] at hadd
    simp only [hr]
    omega

theorem hasID_of_work {id : String} {v : Text} {job job' : Job} (hv : v.job? = some job)
    (hwork : job'.work = job.work) : hasID id (.envelope (some job')) = hasID id v := by
  have hid : job'.id = job.id := congrArg Job.Work.id hwork
  have hcopy : copyID (.envelope (some job')) = copyID v := by
    rw [copyID,copyID,hv]
    exact congrArg some hid
  rw [hasID,hasID,hcopy]

theorem balance_executed {call : Call} {tr : Trace} (id : String) (h : Sound b s)
    (hpre : Permitted b call tr op) (hx : Executed textLe s op s')
    (hbal : copies b id s + acks id s ≤ enqueues id s + replays id s) :
    copies b id s' + acks id s' ≤ enqueues id s' + replays id s' := by
  unfold copies acks enqueues replays at *
  cases hx with
  | idle => exact hbal
  | rpush src key val =>
    rw [pushed_enqueued,Redis.Store.live_rpush]
    have hack : (Effect.enqueued src key val :: s.effects).countP (ackOf id) =
      s.effects.countP (ackOf id) := Machine.countP_cons_toNat (ackOf id) _ _
    dsimp only
    omega
  | zadd src key score member =>
    rw [pushed_enqueued]
    have hadd := Redis.Store.live_zadd_le (isLeaseKey b) (hasID id) s.store key member score
    have hack : (Effect.enqueued src key member :: s.effects).countP (ackOf id) =
      s.effects.countP (ackOf id) := Machine.countP_cons_toNat (ackOf id) _ _
    dsimp only
    omega
  | reserve delayed ready leasePrefix nowMs transferBatch leaseMs token fresh =>
    obtain ⟨_,rfl,queue,rfl,rfl⟩ := hpre
    rw [live_reserveScript (get_lease_of_fresh h fresh) (isLeaseKey_append token)]
    exact hbal
  | getAndDelete key =>
    obtain ⟨token,rfl⟩ := hpre
    rcases getAndDeleteScript_cases s.store (leaseKey b token) with ⟨_,hr⟩ | ⟨v,hget,hr⟩
    · simpa [hr] using hbal
    · have hdel := Redis.Store.live_del (isLeaseKey b) (hasID id) s.store (leaseKey b token)
      simp only [hget,Option.elim_some,isLeaseKey_leaseKey,Bool.true_and] at hdel
      simp only [hr,Option.map_some,Option.toList_some,List.singleton_append,acked_counts]
      have henq : (Effect.acked (leaseKey b token) v :: s.effects).countP (enqueueOf id) =
        s.effects.countP (enqueueOf id) := Machine.countP_cons_toNat (enqueueOf id) _ _
      have hrep : (Effect.acked (leaseKey b token) v :: s.effects).countP (replayOf id) =
        s.effects.countP (replayOf id) := Machine.countP_cons_toNat (replayOf id) _ _
      omega
  | transition lease ready delayed expected encoded runAtMs nowMs =>
    obtain ⟨⟨l,_,rfl⟩,_,job,job',hjob,rfl,hwork⟩ := hpre
    have hle : (transitionLeaseScript s.store (leaseKey b l.token) ready delayed expected
        (.envelope (some job')) runAtMs nowMs).2.live (isLeaseKey b) (hasID id) ≤
          s.store.live (isLeaseKey b) (hasID id) :=
      live_transition_le (hasID_of_work hjob hwork) (isLeaseKey_leaseKey l.token)
    have hnone : ∀ (q : Effect → Bool) (c : Prop) [Decidable c] (k : String) (v v' : Text),
        (q (.transitioned k v v') = false) →
        ((if c then [Effect.transitioned k v v'] else []) ++ s.effects).countP q =
          s.effects.countP q := by
      intro q c _ k v v' hq
      split_ifs <;> simp [hq]
    rw [hnone (ackOf id) _ _ _ _ rfl,hnone (enqueueOf id) _ _ _ _ rfl,
      hnone (replayOf id) _ _ _ _ rfl]
    dsimp only
    omega
  | pexpire key ms =>
    rw [Redis.Store.live_pexpire]
    exact hbal
  | saveEntry entryKey val indexKey score eid fresh =>
    obtain ⟨⟨queue,eid',rfl⟩,_⟩ := hpre
    have hadd := Redis.Store.live_zadd_le (isLeaseKey b) (hasID id)
      (s.store.set (dlqEntryKey b queue eid') val none) indexKey (.raw eid) score
    have hraw : hasID id (.raw eid) = false := rfl
    rw [Redis.Store.live_set,Redis.Store.live_del_of_not _ _ _ _ (isLeaseKey_dlqEntryKey _ _),
      isLeaseKey_dlqEntryKey,hraw] at hadd
    simp only [Bool.false_and,Bool.toNat_false,Nat.add_zero] at hadd
    dsimp only
    omega
  | removeEntry indexKey eid entryKey =>
    obtain ⟨_,queue,eid',rfl⟩ := hpre
    rw [Redis.Store.live_del_of_not _ _ _ _ (isLeaseKey_dlqEntryKey _ _),
      Redis.Store.live_zrem_of_not _ _ _ _ _ rfl]
    exact hbal

def enqueuesID (id : String) (t : Worker) : Bool :=
  match t.call with
  | .enqueue j => j.id = id
  | _ => false

def enqueueCalls (id : String) (c : State) : ℕ := c.threads.countP (enqueuesID id)

def hasPushed (id : String) (t : Worker) : Bool := enqueuesID id t && 0 < pushes t.trace

def pendingReplay (t : Worker) : Option String :=
  match t.rest with
  | .call op _ => match pushOf op with
    | some (.replay _,val) => copyID val
    | _ => none
  | _ => none

def ReplayAfterAck (c : State) : Act → Prop
  | .exec i _ => ∀ id ∈ c.threads[i]?.bind pendingReplay, replays id c.shared < acks id c.shared
  | _ => True

instance (c : State) : (a : Act) → Decidable (ReplayAfterAck c a)
  | .exec i _ => inferInstanceAs (Decidable (∀ id ∈ c.threads[i]?.bind pendingReplay,
      replays id c.shared < acks id c.shared))
  | .start _ => .isTrue trivial
  | .crash _ => .isTrue trivial
  | .env _ => .isTrue trivial

structure Balanced (b : Config) (c : State) : Prop where
  sound : Sound b c.shared
  balance : ∀ id, copies b id c.shared + acks id c.shared ≤
    enqueues id c.shared + replays id c.shared
  matched : ∀ id, replays id c.shared ≤ acks id c.shared
  called : ∀ id, enqueues id c.shared ≤ c.threads.countP (hasPushed id)

theorem copies_le_calls {c : State} (h : Balanced b c) (id : String) :
    copies b id c.shared ≤ enqueueCalls id c := by
  have hbal := h.balance id
  have hmatched := h.matched id
  have hcalled := h.called id
  have hsub : c.threads.countP (hasPushed id) ≤ enqueueCalls id c := by
    apply List.countP_mono_left
    intro t _ ht
    rw [hasPushed,Bool.and_eq_true] at ht
    exact ht.1
  omega

theorem replays_le_acks {id : String} (hx : Executed textLe s op s')
    (hpending : ∀ key val, pushOf op = some (.replay key,val) → hasID id val = true →
      replays id s < acks id s) (hle : replays id s ≤ acks id s) :
    replays id s' ≤ acks id s' := by
  unfold replays acks at *
  rcases effects_executed hx with he | ⟨src,key,val,hpush,he⟩ | ⟨key,v,he⟩ | ⟨key,v,v',he⟩
  · rw [he]
    exact hle
  · rw [he,Machine.countP_cons_toNat,Machine.countP_cons_toNat]
    cases src with
    | client => simpa [replayOf,ackOf] using hle
    | replay k =>
      have hnext := hpending k val hpush
      cases hid : hasID id val <;> simp only [replayOf,ackOf,hid,Bool.toNat_false,
        Bool.toNat_true]
      · exact hle
      · exact hnext hid
  · rw [he,Machine.countP_cons_toNat,Machine.countP_cons_toNat]
    simp only [replayOf,Bool.toNat_false]
    omega
  · rw [he,Machine.countP_cons_toNat,Machine.countP_cons_toNat]
    exact hle

theorem enqueues_le_calls {id : String} {ts : List Worker} {i : ℕ} {t : Worker}
    {k : Ans op → M Reply} {ans : Ans op} (ht : ts[i]? = some t)
    (hpre : Permitted b t.call t.trace op) (hx : Executed textLe s op s')
    (hle : enqueues id s ≤ ts.countP (hasPushed id)) :
    enqueues id s' ≤ (ts.set i { t with rest := k ans, trace := ⟨op,ans⟩ :: t.trace }).countP
      (hasPushed id) := by
  have hkeep : ts.countP (hasPushed id) ≤
      (ts.set i { t with rest := k ans, trace := ⟨op,ans⟩ :: t.trace }).countP
        (hasPushed id) := by
    refine Machine.countP_le_set ht ?_
    intro hp
    simp only [hasPushed,Bool.and_eq_true,decide_eq_true_eq] at hp ⊢
    have hmore : pushes t.trace ≤ pushes (⟨op,ans⟩ :: t.trace) :=
      List.Sublist.countP_le (List.sublist_cons_self _ _)
    exact ⟨hp.1,lt_of_lt_of_le hp.2 hmore⟩
  unfold enqueues at *
  rcases effects_executed hx with he | ⟨src,key,val,hpush,he⟩ | ⟨key,v,he⟩ | ⟨key,v,v',he⟩
  · rw [he]
    omega
  · rw [he,Machine.countP_cons_toNat]
    cases src with
    | replay key => simpa [enqueueOf] using hle.trans hkeep
    | client =>
      obtain ⟨job,rfl,j,hcall,hstamped,hnone,hpush'⟩ := permitted_client hpre hpush
      cases hid : hasID id (.envelope (some job)) with
      | false => simpa [enqueueOf,hid] using hle.trans hkeep
      | true =>
        have hj : j.id = id := by
          rw [← stamped_id hstamped]
          simpa [hasID,copyID,Text.job?,Text.unmarshalEnvelope] using hid
        have hold : hasPushed id t = false := by simp [hasPushed,hnone]
        have hnew : hasPushed id { t with rest := k ans, trace := ⟨op,ans⟩ :: t.trace } = true := by
          simp [hasPushed,enqueuesID,hcall,hj,pushes,hpush']
        rw [Machine.countP_set_of_new ht hold hnew]
        simp only [enqueueOf,hid,Bool.toNat_true]
        omega
  · rw [he,Machine.countP_cons_toNat]
    exact hle.trans hkeep
  · rw [he,Machine.countP_cons_toNat]
    exact hle.trans hkeep

theorem pendingReplay_eq {t : Worker} {k : Ans op → M Reply} {key : String} {val : Text}
    (hrest : t.rest = .call op k) (hpush : pushOf op = some (.replay key,val)) :
    pendingReplay t = copyID val := by
  simp [pendingReplay,hrest,hpush]

theorem balanced_exec {c : State} {i : ℕ} {x : Outcome} {t : Worker} {k : Ans op → M Reply}
    {ans : Ans op} (h : Balanced b c) (hafter : ReplayAfterAck c (.exec i x))
    (ht : c.threads[i]? = some t) (hrest : t.rest = .call op k)
    (hpre : Permitted b t.call t.trace op) (hx : exec textLe c.shared op x = some (ans,s')) :
    Balanced b
      ⟨s',c.threads.set i { t with rest := k ans, trace := ⟨op,ans⟩ :: t.trace }⟩ := by
  have hexe := executed_of_exec hx
  refine ⟨sound_executed h.sound hpre hexe,?_,?_,?_⟩
  · exact fun id => balance_executed id h.sound hpre hexe (h.balance id)
  · intro id
    refine replays_le_acks hexe ?_ (h.matched id)
    intro key val hpush hid
    refine hafter id ?_
    rw [ht,Option.bind_some,pendingReplay_eq hrest hpush]
    simpa [hasID] using hid
  · exact fun id => enqueues_le_calls ht hpre hexe (h.called id)

theorem balanced_start (c : State) (call : Call) (h : Balanced b c) :
    Balanced b { c with threads := c.threads ++ [⟨call,program b call,[],true⟩] } := by
  refine ⟨h.sound,h.balance,h.matched,?_⟩
  intro id
  rw [List.countP_append]
  exact (h.called id).trans (Nat.le_add_right _ _)

theorem balanced_crash (c : State) (i : ℕ) (t : Worker) (h : Balanced b c)
    (ht : c.threads[i]? = some t) :
    Balanced b { c with threads := c.threads.set i { t with alive := false } } := by
  refine ⟨h.sound,h.balance,h.matched,?_⟩
  intro id
  exact (h.called id).trans (Machine.countP_le_set ht fun hp => hp)

theorem balanced_tick (c : State) (ms : ℕ) (h : Balanced b c) :
    Balanced b { c with shared := { c.shared with store := c.shared.store.tick ms } } := by
  refine ⟨sound_tick h.sound ms,?_,h.matched,h.called⟩
  intro id
  have hle := Redis.Store.live_tick_le (isLeaseKey b) (hasID id) c.shared.store ms
  exact (Nat.add_le_add_right hle _).trans (h.balance id)

theorem balanced_of_run {acts : List Act} {c : State}
    (hrun : (system textLe cfg).run acts start = some c)
    (hafter : (system textLe cfg).Along ReplayAfterAck acts start) :
    Balanced cfg.normalize c ∧
      Machine.ThreadsMeet (discipline cfg.normalize) (result cfg.normalize) c := by
  refine Machine.run_config_invariant (m := system textLe cfg) (P := ReplayAfterAck)
    (program_meets cfg.normalize) (fun c call h _ => balanced_start c call h) ?_
    (fun c i t h _ ht => balanced_crash c i t h ht) (fun c ms h _ => balanced_tick c ms h) ?_ (by simp [Machine.ThreadsMeet,start]) hafter hrun
  · exact fun c i x t op k ans s' h hP ht _ hrest hpre hx =>
      ⟨trivial,balanced_exec h hP ht hrest hpre hx⟩
  · refine ⟨sound_empty,?_,?_,?_⟩ <;> intro id <;>
      simp [start,Server.empty,copies,acks,enqueues,replays,Redis.Store.live,Redis.Store.empty,
        Redis.Store.listed,Redis.Store.scheduled,Redis.Store.stored]

def MovesNotCopies (cfg : Config) (c : State) : Prop :=
  ∀ id, copies cfg.normalize id c.shared ≤ enqueueCalls id c

def InQueue (b : Config) (queue key : String) (val : Text) (r : Redis.Store Text) : Prop :=
  (key = readyKey b queue ∧ ∃ x ∈ r.lists, x.key = key ∧ x.val = val) ∨
    (key = delayedKey b queue ∧ ∃ z ∈ r.zsets, z.key = key ∧ z.member = val)

theorem replayed_in_queue {call : Call} {tr : Trace} {entryKey key : String} {val : Text}
    (hpre : Permitted b call tr op) (hx : Executed textLe s op s')
    (he : s'.effects = .enqueued (.replay entryKey) key val :: s.effects) :
    ∃ raw entry, held tr = some (entryKey,raw) ∧ raw.unmarshalRecord = some entry ∧
      InQueue b entry.originalQueue key val s'.store := by
  rcases pushed_of_effects hx he with ⟨rfl,hstore⟩ | ⟨score,rfl,hstore⟩
  · obtain ⟨job,_,_,hkey,_,raw,entry,j,hheld,hentry,_,_,hqueue⟩ := hpre
    refine ⟨raw,entry,hheld,hentry,.inl ⟨hqueue ▸ hkey,⟨key,val⟩,?_,rfl,rfl⟩⟩
    rw [hstore]
    exact List.mem_append_right _ List.mem_cons_self
  · obtain ⟨job,_,_,hkey,_,raw,entry,j,hheld,hentry,_,_,hqueue⟩ := hpre
    refine ⟨raw,entry,hheld,hentry,.inr ⟨hqueue ▸ hkey,⟨key,score,val⟩,?_,rfl,rfl⟩⟩
    rw [hstore]
    exact List.mem_append_right _ List.mem_cons_self

theorem copies_pos_of_inQueue {queue key id : String} {val : Text}
    (h : InQueue b queue key val s.store) (hid : copyID val = some id) :
    0 < copies b id s := by
  have hval : hasID id val = true := by simp [hasID,hid]
  unfold copies Redis.Store.live
  rcases h with ⟨_,x,hx,_,rfl⟩ | ⟨_,z,hz,_,rfl⟩
  · have hpos : 0 < s.store.listed (hasID id) := List.countP_pos_iff.mpr ⟨x,hx,hval⟩
    omega
  · have hpos : 0 < s.store.scheduled (hasID id) := List.countP_pos_iff.mpr ⟨z,hz,hval⟩
    omega

theorem deadLetter_moves_when_replayed_after_ack {acts : List Act} {c : State}
    (hrun : (system textLe cfg).run acts start = some c)
    (hafter : (system textLe cfg).Along ReplayAfterAck acts start) :
    MovesNotCopies cfg c ∧
    ∀ i x c' t entryKey key val id, ReplayAfterAck c (.exec i x) →
      (system textLe cfg).step c (.exec i x) = some c' → c.threads[i]? = some t →
      c'.shared.effects = .enqueued (.replay entryKey) key val :: c.shared.effects →
      copyID val = some id → enqueueCalls id c = 1 →
      copies cfg.normalize id c'.shared = 1 ∧
        ∃ raw entry, held t.trace = some (entryKey,raw) ∧ raw.unmarshalRecord = some entry ∧
          InQueue cfg.normalize entry.originalQueue key val c'.shared.store := by
  obtain ⟨hbal,hmeet⟩ := balanced_of_run hrun hafter
  refine ⟨copies_le_calls hbal,?_⟩
  intro i x c' t entryKey key val id hnext hs ht he hid hone
  obtain ⟨t',op,k,ans,s',ht',_,hrest,hx,rfl⟩ := Machine.exec_cases _ hs
  cases ht.symm.trans ht'
  have hm := hmeet t (List.mem_of_getElem? ht)
  rw [hrest] at hm
  obtain ⟨raw,entry,hheld,hentry,hqueue⟩ := replayed_in_queue hm.1 (executed_of_exec hx) he
  have hle := copies_le_calls (balanced_exec hbal hnext ht hrest hm.1 hx) id
  have hcalls : enqueueCalls id ⟨s',c.threads.set i { t with
      rest := k ans, trace := ⟨op,ans⟩ :: t.trace }⟩ = enqueueCalls id c :=
    Machine.countP_set_of_same ht rfl
  have hpos := copies_pos_of_inQueue hqueue hid
  refine ⟨?_,raw,entry,hheld,hentry,hqueue⟩
  dsimp only at hle hpos ⊢
  omega

def deadLetterMail : List Act :=
  [.start (.moveToDLQ (tokenLease "a1") none),.exec 2 .done,.exec 2 .done,
    .exec 2 (.at (3*second)),.exec 2 (.at (3*second)),.exec 2 .done,.exec 2 (.at (3*second)),
    .exec 2 .done,.exec 2 (.token "b2"),.exec 2 (.at (3*second)),.exec 2 .done]

def replayRead (i : ℕ) (id : String) : List Act :=
  [.start (.replayDLQ "q" [id]),.exec i .done,.exec i .done,.exec i (.at (4*second)),
    .exec i .done,.exec i (.at (4*second))]

def replayPush (i : ℕ) : List Act := [.exec i .done,.exec i .done]

theorem replay_leaves_dlq_copy : ∃ c,
    (system anyOrder emptyConfig).run (enqueueMail ++ reserveMail ++ deadLetterMail ++
      replayRead 3 "b2" ++ replayPush 3) start = some c ∧ ¬ MovesNotCopies emptyConfig c := by
  have hrun : ((system anyOrder emptyConfig).run (enqueueMail ++ reserveMail ++ deadLetterMail ++
      replayRead 3 "b2" ++ replayPush 3) start).any (fun c =>
        copies emptyConfig.normalize "j1" c.shared = 2 && enqueueCalls "j1" c = 1) = true := by
    decide +kernel
  obtain ⟨c,hc,hfacts⟩ := (Option.any_eq_true _ _).mp hrun
  refine ⟨c,hc,?_⟩
  simp only [Bool.and_eq_true,decide_eq_true_eq] at hfacts
  intro hmoves
  have hle := hmoves "j1"
  omega

def ackDeadLetter : List Act :=
  reserveFrom 3 "q.dlq" "c3" ++
    ([.start (.ack (tokenLease "c3")),.exec 4 .done,.exec 4 .done] : List Act)

def lastReplayed (c c' : State) : Bool :=
  match c'.shared.effects with
  | .enqueued (.replay _) _ val :: rest => rest = c.shared.effects && copyID val = some "j1"
  | _ => false

theorem deadLetter_moves_when_replayed_after_ack_of_copy : ∃ c c',
    (system anyOrder emptyConfig).run (enqueueMail ++ reserveMail ++ deadLetterMail ++
      ackDeadLetter ++ replayRead 5 "b2") start = some c ∧
    (system anyOrder emptyConfig).step c (.exec 5 .done) = some c' ∧
    MovesNotCopies emptyConfig c ∧ copies emptyConfig.normalize "j1" c'.shared = 1 := by
  have hrun : ((system anyOrder emptyConfig).run (enqueueMail ++ reserveMail ++ deadLetterMail ++
      ackDeadLetter ++ replayRead 5 "b2") start).any (fun c =>
        enqueueCalls "j1" c = 1 && ReplayAfterAck c (.exec 5 .done) && c.threads[5]?.isSome &&
        ((system anyOrder emptyConfig).step c (.exec 5 .done)).any (lastReplayed c)) = true := by
    decide +kernel
  obtain ⟨c,hc,hfacts⟩ := (Option.any_eq_true _ _).mp hrun
  simp only [Bool.and_eq_true,decide_eq_true_eq,Option.any_eq_true] at hfacts
  obtain ⟨⟨⟨hone,hnext⟩,hthread⟩,c',hs,hlast⟩ := hfacts
  obtain ⟨t,ht⟩ := Option.isSome_iff_exists.mp hthread
  have hmoves := deadLetter_moves_when_replayed_after_ack hc (by decide +kernel)
  refine ⟨c,c',hc,hs,hmoves.1,?_⟩
  unfold lastReplayed at hlast
  split at hlast
  · rename_i entryKey key val rest he
    simp only [Bool.and_eq_true,decide_eq_true_eq] at hlast
    exact (hmoves.2 5 .done c' t entryKey key val "j1" hnext hs ht (hlast.1 ▸ he) hlast.2 hone).1
  · simp at hlast

def replayedFrom (entryKey : String) : Effect → Bool
  | .enqueued (.replay key) _ _ => key = entryKey
  | _ => false

def replaysFrom (entryKey : String) (s : Server) : ℕ := s.effects.countP (replayedFrom entryKey)

def isReplay : Call → Bool
  | .replayDLQ .. => true
  | _ => false

def running (t : Worker) : Bool :=
  t.alive && match t.rest with
    | .call .. => true
    | _ => false

def holds (entryKey : String) (t : Worker) : Bool :=
  running t && isReplay t.call && (held t.trace).any fun h => h.1 = entryKey

def pendingRead (t : Worker) : Option String :=
  if isReplay t.call then
    match t.rest with
    | .call (.get key) _ => some key
    | _ => none
  else none

def ExclusiveRead (c : State) : Act → Prop
  | .exec i .done => ∀ key ∈ c.threads[i]?.bind pendingRead,
      (c.shared.store.get key).isSome = true → replaysFrom key c.shared = 0 ∧
        ∀ t ∈ c.threads.eraseIdx i, holds key t = false
  | _ => True

instance (c : State) : (a : Act) → Decidable (ExclusiveRead c a)
  | .exec i .done => inferInstanceAs (Decidable (∀ key ∈ c.threads[i]?.bind pendingRead,
      (c.shared.store.get key).isSome = true → replaysFrom key c.shared = 0 ∧
        ∀ t ∈ c.threads.eraseIdx i, holds key t = false))
  | .exec _ (.lostRequest _) => .isTrue trivial
  | .exec _ (.lostReply _) => .isTrue trivial
  | .exec _ .closed => .isTrue trivial
  | .exec _ (.at _) => .isTrue trivial
  | .exec _ (.token _) => .isTrue trivial
  | .start _ => .isTrue trivial
  | .crash _ => .isTrue trivial
  | .env _ => .isTrue trivial

def ReplayOnce (c : State) : Prop :=
  ∀ key, replaysFrom key c.shared + c.threads.countP (holds key) ≤ 1

theorem held_cons {ans : Ans op} {tr : Trace} (hget : ∀ key, op ≠ .get key)
    (hpush : pushOf op = none) : held (⟨op,ans⟩ :: tr) = held tr := by
  cases op with
  | get key => exact absurd rfl (hget key)
  | rpush | zadd => simp [pushOf] at hpush
  | _ => rfl

theorem held_push {ans : Ans op} {tr : Trace} {src : Source} {v : Text}
    (hpush : pushOf op = some (src,v)) : held (⟨op,ans⟩ :: tr) = none := by
  cases op with
  | rpush | zadd => rfl
  | _ => simp [pushOf] at hpush

theorem permitted_replay {call : Call} {tr : Trace} {key : String} {v : Text}
    (hpre : Permitted b call tr op) (hpush : pushOf op = some (.replay key,v)) :
    isReplay call = true ∧ ∃ raw, held tr = some (key,raw) := by
  cases op <;> simp only [pushOf,Option.some.injEq,Prod.mk.injEq,reduceCtorEq] at hpush
  all_goals
    obtain ⟨rfl,rfl⟩ := hpush
    obtain ⟨job,_,_,_,⟨queue,ids,rfl⟩,raw,_,_,hheld,_⟩ := hpre
    exact ⟨rfl,raw,hheld⟩

theorem replaysFrom_executed (key : String) (hx : Executed textLe s op s') :
    replaysFrom key s' ≤ replaysFrom key s +
      (pushOf op).elim 0 fun p => (decide (p.1 = .replay key)).toNat := by
  unfold replaysFrom
  rcases effects_executed hx with he | ⟨src,k,val,hpush,he⟩ | ⟨k,v,he⟩ | ⟨k,v,v',he⟩
  · rw [he]
    omega
  · rw [he,Machine.countP_cons_toNat,hpush]
    cases src <;> simp [replayedFrom]
  all_goals
    rw [he,Machine.countP_cons_toNat]
    simp [replayedFrom]

theorem holds_push {src : Source} {v : Text} (ans : Ans op) (t : Worker) (rest : M Reply)
    (key : String) (hpush : pushOf op = some (src,v)) :
    holds key { t with rest := rest, trace := ⟨op,ans⟩ :: t.trace } = false := by
  simp [holds,held_push hpush]

theorem replayOnce_push {c : State} {i : ℕ} {t : Worker} {k : Ans op → M Reply} {ans : Ans op}
    {src : Source} {v : Text} (h : ReplayOnce c) (ht : c.threads[i]? = some t)
    (halive : t.alive = true) (hrest : t.rest = .call op k)
    (hpre : Permitted b t.call t.trace op) (hx : Executed textLe c.shared op s')
    (hpush : pushOf op = some (src,v)) :
    ReplayOnce ⟨s',c.threads.set i { t with rest := k ans, trace := ⟨op,ans⟩ :: t.trace }⟩ := by
  intro key
  have hold := h key
  have hfree := holds_push ans t (k ans) key hpush
  have hcount := replaysFrom_executed key hx
  rw [hpush,Option.elim_some] at hcount
  by_cases hsrc : src = .replay key
  · subst hsrc
    obtain ⟨hcall,raw,hheld⟩ := permitted_replay hpre hpush
    have hholds : holds key t = true := by simp [holds,running,halive,hrest,hcall,hheld]
    have hdrop := Machine.countP_set_of_drop ht hholds hfree
    simp only [decide_true,Bool.toNat_true] at hcount
    dsimp only
    omega
  · have hle : (c.threads.set i { t with rest := k ans, trace := ⟨op,ans⟩ :: t.trace }).countP
        (holds key) ≤ c.threads.countP (holds key) :=
      Machine.countP_set_le ht fun hq => by simp [hfree] at hq
    simp only [hsrc,decide_false,Bool.toNat_false] at hcount
    dsimp only
    omega

theorem replayOnce_keep {c : State} {i : ℕ} {t t' : Worker} (h : ReplayOnce c)
    (ht : c.threads[i]? = some t) (hholds : ∀ key, holds key t' = true → holds key t = true)
    (hcount : ∀ key, replaysFrom key s' ≤ replaysFrom key c.shared) :
    ReplayOnce ⟨s',c.threads.set i t'⟩ := by
  intro key
  have hle := Machine.countP_set_le ht (hholds key)
  have hold := h key
  have hkey := hcount key
  dsimp only
  omega

theorem get_exec {key : String} {x : Outcome} {ans : Except GoError (Option Text)}
    (hx : exec textLe s (.get key) x = some (ans,s')) : s' = s ∧
      ∀ raw, ans = .ok (some raw) → x = .done ∧ s.store.get key = some raw := by
  cases x <;> simp only [exec,reply,Option.some.injEq,Prod.mk.injEq,reduceCtorEq] at hx
  all_goals
    obtain ⟨rfl,rfl⟩ := hx
    refine ⟨rfl,?_⟩
    intro raw hraw
  · exact ⟨rfl,Except.ok.inj hraw⟩
  all_goals cases hraw

theorem holds_get {key entryKey : String} {ans : Ans (.get entryKey)} {t : Worker}
    {rest : M Reply}
    (h : holds key { t with rest := rest, trace := ⟨.get entryKey,ans⟩ :: t.trace } = true) :
    isReplay t.call = true ∧ key = entryKey ∧ ∃ raw, ans = .ok (some raw) := by
  simp only [holds,Bool.and_eq_true] at h
  obtain ⟨⟨_,hcall⟩,hheld⟩ := h
  match ans with
  | .error e => simp [held] at hheld
  | .ok none => simp [held] at hheld
  | .ok (some raw) =>
    simp only [held,Option.any_some,decide_eq_true_eq] at hheld
    exact ⟨hcall,hheld.symm,raw,rfl⟩

theorem replayOnce_get {c : State} {i : ℕ} {x : Outcome} {t : Worker} {entryKey : String}
    {k : Ans (.get entryKey) → M Reply} {ans : Ans (.get entryKey)} (h : ReplayOnce c)
    (hexcl : ExclusiveRead c (.exec i x)) (ht : c.threads[i]? = some t)
    (hrest : t.rest = .call (.get entryKey) k)
    (hx : exec textLe c.shared (.get entryKey) x = some (ans,s')) :
    ReplayOnce ⟨s',c.threads.set i { t with
      rest := k ans, trace := ⟨.get entryKey,ans⟩ :: t.trace }⟩ := by
  obtain ⟨rfl,hans⟩ := get_exec hx
  intro key
  have hold := h key
  by_cases hholds : holds key { t with
      rest := k ans, trace := ⟨.get entryKey,ans⟩ :: t.trace } = true
  · obtain ⟨hcall,rfl,raw,hraw⟩ := holds_get hholds
    obtain ⟨rfl,hget⟩ := hans raw hraw
    have hpending : key ∈ c.threads[i]?.bind pendingRead := by
      simp [ht,pendingRead,hcall,hrest]
    obtain ⟨hzero,hothers⟩ := hexcl key hpending (by simp [hget])
    have hone := Machine.countP_set_of_only { t with
      rest := k ans, trace := ⟨.get key,ans⟩ :: t.trace } ht hothers
    dsimp only
    omega
  · have hle := Machine.countP_set_le (q := holds key) ht (fun hq => absurd hq hholds)
    dsimp only
    omega

theorem replayOnce_exec {c : State} {i : ℕ} {x : Outcome} {t : Worker} {k : Ans op → M Reply}
    {ans : Ans op} (h : ReplayOnce c) (hexcl : ExclusiveRead c (.exec i x))
    (ht : c.threads[i]? = some t) (halive : t.alive = true) (hrest : t.rest = .call op k)
    (hpre : Permitted b t.call t.trace op) (hx : exec textLe c.shared op x = some (ans,s')) :
    ReplayOnce ⟨s',c.threads.set i { t with rest := k ans, trace := ⟨op,ans⟩ :: t.trace }⟩ := by
  have hexe := executed_of_exec hx
  by_cases hread : ∃ key, op = .get key
  · obtain ⟨key,rfl⟩ := hread
    exact replayOnce_get h hexcl ht hrest hx
  · cases hpush : pushOf op with
    | some p => exact replayOnce_push h ht halive hrest hpre hexe hpush
    | none =>
      have hheld : held (⟨op,ans⟩ :: t.trace) = held t.trace :=
        held_cons (fun key heq => hread ⟨key,heq⟩) hpush
      refine replayOnce_keep h ht ?_ ?_
      · intro key hq
        simp only [holds,hheld,Bool.and_eq_true] at hq ⊢
        refine ⟨⟨?_,hq.1.2⟩,hq.2⟩
        simp [running,halive,hrest]
      · intro key
        have hcount := replaysFrom_executed key hexe
        simpa [hpush] using hcount

theorem dlq_entry_replayed_once {acts : List Act} {c : State}
    (hrun : (system textLe cfg).run acts start = some c)
    (hexcl : (system textLe cfg).Along ExclusiveRead acts start) (entryKey : String) :
    replaysFrom entryKey c.shared ≤ 1 := by
  have hinv : ReplayOnce c ∧
      Machine.ThreadsMeet (discipline cfg.normalize) (result cfg.normalize) c := by
    refine Machine.run_config_invariant (m := system textLe cfg) (P := ExclusiveRead)
      (program_meets cfg.normalize) ?_ ?_ ?_ (fun c ms h _ => h) ?_
      (by simp [Machine.ThreadsMeet,start]) hexcl hrun
    · intro c call h _ key
      have hnew : ([⟨call,program cfg.normalize call,[],true⟩] : List Worker).countP (holds key) =
        0 := by simp [holds,held]
      have hold := h key
      simp only [List.countP_append] at hold ⊢
      exact (congrArg (fun n => replaysFrom key c.shared + (c.threads.countP (holds key) + n))
        hnew).trans_le hold
    · exact fun c i x t op k ans s' h hP ht halive hrest hpre hx =>
        ⟨trivial,replayOnce_exec h hP ht halive hrest hpre hx⟩
    · exact fun c i t h _ ht => replayOnce_keep h ht (by simp [holds,running]) (fun _ => le_refl _)
    · intro key
      simp [start,Server.empty,replaysFrom]
  have hone := hinv.1 entryKey
  omega

def deadLetterKey : String := dlqEntryKey emptyConfig.normalize "q" "b2"

theorem dlq_entry_replayed_once_by_retried_call : ∃ c,
    (system anyOrder emptyConfig).run (enqueueMail ++ reserveMail ++ deadLetterMail ++
      [.start (.replayDLQ "q" ["b2"]),.exec 3 .done,.exec 3 (.lostReply .deadlineExceeded)] ++
      replayRead 4 "b2" ++ replayPush 4) start = some c ∧
    replaysFrom deadLetterKey c.shared ≤ 1 := by
  obtain ⟨c,hc⟩ := Option.isSome_iff_exists.mp (by decide +kernel : ((system anyOrder
    emptyConfig).run (enqueueMail ++ reserveMail ++ deadLetterMail ++
      [.start (.replayDLQ "q" ["b2"]),.exec 3 .done,.exec 3 (.lostReply .deadlineExceeded)] ++
      replayRead 4 "b2" ++ replayPush 4) start).isSome = true)
  exact ⟨c,hc,dlq_entry_replayed_once hc (by decide +kernel) deadLetterKey⟩

theorem overlapping_replays_enqueue_twice : ∃ c,
    (system anyOrder emptyConfig).run (enqueueMail ++ reserveMail ++ deadLetterMail ++
      replayRead 3 "b2" ++ replayRead 4 "b2" ++ replayPush 3 ++ replayPush 4) start = some c ∧
    ¬ replaysFrom deadLetterKey c.shared ≤ 1 := by
  have hrun : ((system anyOrder emptyConfig).run (enqueueMail ++ reserveMail ++ deadLetterMail ++
      replayRead 3 "b2" ++ replayRead 4 "b2" ++ replayPush 3 ++ replayPush 4) start).any
        (fun c => replaysFrom deadLetterKey c.shared = 2) = true := by decide +kernel
  obtain ⟨c,hc,hfacts⟩ := (Option.any_eq_true _ _).mp hrun
  refine ⟨c,hc,?_⟩
  have htwo := of_decide_eq_true hfacts
  omega

end Nimburion.Jobs.RedisBackend
