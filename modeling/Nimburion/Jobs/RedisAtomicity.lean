import Nimburion.Lib.InteractionAlone
import Nimburion.Jobs.RedisSafety

namespace Nimburion.Jobs.RedisBackend
open Interaction GoText GoTime

abbrev Done := Performed Server Op Outcome

section Listing

variable (textLe : Text → Text → Bool) (b : Config)

instance (op : Op) : Inhabited (Ans op) := by
  cases op <;> infer_instance

-- every command is answered
def answered (s : Server) (op : Op) : Ans op × Server := (exec textLe s op .done).getD (default,s)

def listed (s : Server) (queue : String) (limit : Int) : Except GoError (List DLQRecord) :=
  ((listDLQ b queue limit).eval (answered textLe) s).1

def recordAt (r : Redis.Store Text) (queue : String) : Text → Option DLQRecord
  | .raw id => (r.get (dlqEntryKey b queue id)).bind Text.unmarshalRecord
  | _ => none

theorem eval_listLoop (s : Server) (queue : String) (ids : List Text) (entries : List DLQRecord) :
    (listLoop b queue ids entries).eval (answered textLe) s =
      (.ok (entries ++ ids.filterMap (recordAt b s.store queue)),s) := by
  induction ids generalizing entries with
  | nil => simp [listLoop]
  | cons id ids ih =>
    cases id with
    | envelope job =>
      rw [List.filterMap_cons_none rfl,← ih entries,listLoop]
      simp
    | record entry =>
      rw [List.filterMap_cons_none rfl,← ih entries,listLoop]
      simp
    | raw id =>
      have hget : answered textLe s (.get (dlqEntryKey b queue id)) =
        (.ok (s.store.get (dlqEntryKey b queue id)),s) := rfl
      simp only [listLoop,Prog.eval_bind,Prog.eval_perform,hget]
      cases hraw : s.store.get (dlqEntryKey b queue id) with
      | none => simp [ih,recordAt,hraw]
      | some raw =>
        cases hrecord : raw.unmarshalRecord with
        | none => simp [ih,recordAt,hraw,hrecord]
        | some entry => simp [ih,recordAt,hraw,hrecord]

theorem recordAt_trimSpace (r : Redis.Store Text) (queue : String) :
    recordAt b r (trimSpace queue) = recordAt b r queue := by
  funext v
  cases v <;> simp [recordAt,dlqEntryKey]

theorem listed_eq (s : Server) (queue : String) {limit : Int} (hq : trimSpace queue ≠ "")
    (hlimit : 0 < limit) : listed textLe b s queue limit =
      .ok ((s.store.zrevrange textLe (dlqIndexKey b queue) limit.toNat).filterMap
        (recordAt b s.store queue)) := by
  have hopen : answered textLe s .ensureOpen = (.ok (),s) := rfl
  have hrange : ∀ key n, answered textLe s (.zrevrange key n) =
    (.ok (s.store.zrevrange textLe key n),s) := fun _ _ => rfl
  have hindex : dlqIndexKey b (trimSpace queue) = dlqIndexKey b queue := by simp [dlqIndexKey]
  have hpos : ¬ limit ≤ 0 := by omega
  simp only [listed,listDLQ,ensureOpen,Prog.eval_bind,Prog.eval_perform,Prog.eval_liftExcept,hopen,
    hq,if_false,hrange,eval_listLoop,recordAt_trimSpace,List.nil_append,hindex,hpos]

theorem zrevrange_perm (r : Redis.Store Text) (key : String) {limit : ℕ}
    (h : r.zsets.length ≤ limit) : (r.zrevrange textLe key limit).Perm
      ((r.zsets.filter fun z => z.key = key).map Redis.ZRow.member) := by
  unfold Redis.Store.zrevrange
  apply List.Perm.map
  have hsort := List.perm_insertionSort (Redis.Store.zbefore textLe)
    (r.zsets.filter fun z => z.key = key)
  rw [List.take_of_length_le]
  · exact (List.reverse_perm _).trans hsort
  · rw [List.length_reverse,hsort.length_eq]
    exact (List.length_filter_le _ _).trans h

end Listing

section Atomic

variable (textLe : Text → Text → Bool) (b : Config)

def isFor (id : String) (entry : DLQRecord) : Bool := entry.job.any fun job => job.id = id

-- the lease is gone and ListDLQ of the job's queue shows one entry for the job
def Buried (s : Server) (lease : Lease) (job : Job) : Prop :=
  s.store.get (leaseKey b lease.token) = none ∧
  ∃ n : Int, ∀ limit ≥ n, ∃ entries, listed textLe b s job.queue limit = .ok entries ∧
    entries.countP (isFor job.id) = 1

def Atomic (s : Server) (lease : Lease) (tr : List Done) (r : Except GoError Unit) (s' : Server) :
    Prop :=
  match r with
  | .error _ => ∀ ev ∈ tr, ev.after.store = ev.before.store
  | .ok _ => ∃ raw job, s.store.get (leaseKey b lease.token) = some raw ∧
      decodeLeased lease raw = .ok job ∧ Buried textLe b s' lease job

-- the script took the lease
def Took : Done → Prop
  | ⟨s,.transitionLeaseScript lease _ _ expected _ _ _,.done,_⟩ => s.store.get lease = some expected
  | ⟨s,.transitionLeaseScript lease _ _ expected _ _ _,.lostReply _,_⟩ =>
      s.store.get lease = some expected
  | _ => False

-- no other id of the index leads to the key of the new entry or to an entry of its job
def Unlisted (entry : DLQRecord) (r : Redis.Store Text) : Prop :=
  ∀ id, id ≠ entry.id → r.zmem (dlqIndexKey b entry.originalQueue) (.raw id) →
    dlqEntryKey b entry.originalQueue id ≠ dlqEntryKey b entry.originalQueue entry.id ∧
    ∀ other job, recordAt b r entry.originalQueue (.raw id) = some other → entry.job = some job →
      isFor job.id other = false

def Harmless : Done → Prop
  | ⟨s,.transitionLeaseScript lease _ _ expected _ _ _,.lostReply _,_⟩ =>
      s.store.get lease ≠ some expected
  | ⟨s,.saveEntry _ (.record entry) _ _ _,.done,_⟩ => Unlisted b entry s.store
  | ⟨_,.saveEntry ..,_,_⟩ => False
  | _ => True

def lastReading : List Done → Option Time
  | [] => none
  | ⟨_,.now,.at t,_⟩ :: _ => some t
  | _ :: tr => lastReading tr

def Clean (tr : List Done) : Prop :=
  (∀ ev ∈ tr, Harmless b ev) ∧
  ((∃ ev ∈ tr, Took ev) → ∀ t, lastReading tr = some t → inYearRange t = true)

end Atomic

section Counting

variable {textLe : Text → Text → Bool} {b : Config}

theorem listed_count {s : Server} {queue : String} (p : DLQRecord → Bool)
    (hq : trimSpace queue ≠ "") (n : ℕ) :
    (∃ m : Int, ∀ limit ≥ m, ∃ entries, listed textLe b s queue limit = .ok entries ∧
      entries.countP p = n) ↔
    (s.store.zsets.filter fun z => z.key = dlqIndexKey b queue).countP
      (fun z => (recordAt b s.store queue z.member).any p) = n := by
  have hcount : ∀ limit : Int, (s.store.zsets.length : Int) < limit → ∃ entries,
      listed textLe b s queue limit = .ok entries ∧ entries.countP p =
        (s.store.zsets.filter fun z => z.key = dlqIndexKey b queue).countP
          (fun z => (recordAt b s.store queue z.member).any p) := by
    intro limit hlimit
    refine ⟨_,listed_eq textLe b s queue hq (by omega),?_⟩
    rw [List.countP_filterMap,
      (zrevrange_perm textLe s.store (dlqIndexKey b queue) (by omega)).countP_eq,List.countP_map]
    apply List.countP_congr
    intro z _
    cases hz : recordAt b s.store queue z.member <;> simp [hz]
  constructor
  · rintro ⟨m,hm⟩
    obtain ⟨entries,hlisted,hn⟩ := hm (max m (s.store.zsets.length + 1)) (le_max_left _ _)
    obtain ⟨entries',hlisted',hn'⟩ := hcount (max m (s.store.zsets.length + 1))
      (by have := le_max_right m (s.store.zsets.length + 1 : Int); omega)
    rw [hlisted,Except.ok.injEq] at hlisted'
    rw [← hn',← hlisted',hn]
  · intro hn
    refine ⟨s.store.zsets.length + 1,fun limit hlimit => ?_⟩
    obtain ⟨entries,hlisted,he⟩ := hcount limit (by omega)
    exact ⟨entries,hlisted,he.trans hn⟩

def saved (b : Config) (entry : DLQRecord) (score : Int) (r : Redis.Store Text) :
    Redis.Store Text :=
  (r.set (dlqEntryKey b entry.originalQueue entry.id) (.record entry) none).zadd
    (dlqIndexKey b entry.originalQueue) score (.raw entry.id)

theorem get_saved (entry : DLQRecord) (score : Int) (r : Redis.Store Text) (key : String) :
    (saved b entry score r).get key =
      if key = dlqEntryKey b entry.originalQueue entry.id then some (.record entry)
      else r.get key :=
  Redis.Store.get_set r _ _ key none

theorem unshown_saved {r : Redis.Store Text} {entry : DLQRecord} {score : Int} {job : Job}
    {id : String} (hjob : entry.job = some job) :
    (recordAt b (saved b entry score r) entry.originalQueue (.raw id)).any (isFor job.id) = false ↔
    dlqEntryKey b entry.originalQueue id ≠ dlqEntryKey b entry.originalQueue entry.id ∧
    ∀ other job, recordAt b r entry.originalQueue (.raw id) = some other → entry.job = some job →
      isFor job.id other = false := by
  by_cases hkey : dlqEntryKey b entry.originalQueue id =
      dlqEntryKey b entry.originalQueue entry.id
  · simp [recordAt,get_saved,hkey,Text.unmarshalRecord,isFor,hjob]
  · have hsame : recordAt b (saved b entry score r) entry.originalQueue (.raw id) =
        recordAt b r entry.originalQueue (.raw id) := by
      simp [recordAt,get_saved,hkey]
    rw [hsame]
    cases recordAt b r entry.originalQueue (.raw id) <;> simp [hkey,hjob]

theorem saved_count {r : Redis.Store Text} {entry : DLQRecord} {job : Job} {score : Int}
    (hjob : entry.job = some job) :
    ((saved b entry score r).zsets.filter fun z =>
      z.key = dlqIndexKey b entry.originalQueue).countP (fun z =>
        (recordAt b (saved b entry score r) entry.originalQueue z.member).any (isFor job.id)) = 1 ↔
      Unlisted b entry r := by
  have hnew : (recordAt b (saved b entry score r) entry.originalQueue (.raw entry.id)).any
      (isFor job.id) = true := by
    simp [recordAt,get_saved,Text.unmarshalRecord,isFor,hjob]
  have hrows : ((saved b entry score r).zsets.filter fun z =>
      z.key = dlqIndexKey b entry.originalQueue) =
      ((r.zsets.filter fun z => z.slot ≠ (dlqIndexKey b entry.originalQueue,.raw entry.id)).filter
        fun z => z.key = dlqIndexKey b entry.originalQueue) ++
        [⟨dlqIndexKey b entry.originalQueue,score,.raw entry.id⟩] := by
    simp [saved,Redis.Store.zadd,Redis.Store.set,List.filter_append]
  rw [hrows,List.countP_append,Redis.countP_singleton_toNat,hnew,Bool.toNat_true,
    Nat.add_eq_right,List.countP_eq_zero]
  constructor
  · rintro hnone id hid ⟨z,hz,hslot⟩
    simp only [Redis.ZRow.slot,Prod.mk.injEq] at hslot
    have hold := hnone z (by
      simp [hz,Redis.ZRow.slot,hslot,hid])
    rw [hslot.2,Bool.not_eq_true] at hold
    exact (unshown_saved hjob).mp hold
  · intro hlone z hz
    simp only [List.mem_filter,decide_eq_true_eq,Redis.ZRow.slot,ne_eq,Prod.mk.injEq,not_and] at hz
    obtain ⟨⟨hz,hslot⟩,hkey⟩ := hz
    rw [Bool.not_eq_true]
    cases hv : z.member with
    | envelope job => rfl
    | record other => rfl
    | raw id =>
      apply (unshown_saved hjob).mpr
      apply hlone
      · rintro rfl
        exact hslot hkey hv
      · exact ⟨z,hz,by rw [Redis.ZRow.slot,hkey,hv]⟩

end Counting

section Phases

variable {textLe : Text → Text → Bool} {cfg b : Config} {s₀ s s' : Server} {tr : List Done}

def reads : Op → Bool
  | .ensureOpen => true
  | .now => true
  | .randomToken => true
  | .get _ => true
  | _ => false

theorem get_of_get_waited {es : List ℕ} {key : String} {v : Text}
    (h : (es.foldl (system textLe cfg).env s).store.get key = some v) :
    s.store.get key = some v := by
  induction es generalizing s with
  | nil => exact h
  | cons e es ih => exact Redis.Store.get_of_get_tick (ih h)

theorem exec_reads {op : Op} {o : Outcome} {a : Ans op} (hop : reads op = true)
    (h : exec textLe s op o = some (a,s')) : s' = s := by
  cases op <;> simp only [reads,Bool.false_eq_true] at hop
  · cases o <;> simp only [exec,Option.some.injEq,Prod.mk.injEq,reduceCtorEq] at h
    all_goals exact h.2.symm
  · cases o <;> simp only [exec,Option.some.injEq,Prod.mk.injEq,reduceCtorEq] at h
    exact h.2.symm
  · cases o <;> simp only [exec,reduceCtorEq] at h
    split_ifs at h
    simp only [Option.some.injEq,Prod.mk.injEq] at h
    exact h.2.symm
  · simp only [exec] at h
    rcases reply_cases h with rfl | rfl <;> rfl

-- so far nothing has been changed
structure Idle (b : Config) (s₀ : Server) (tr : List Done) (s : Server) : Prop where
  unchanged : ∀ ev ∈ tr, ev.after.store = ev.before.store
  harmless : ∀ ev ∈ tr, Harmless b ev
  untaken : ∀ ev ∈ tr, ¬ Took ev
  kept : ∀ key v, s.store.get key = some v → s₀.store.get key = some v

-- the lease has been taken and the entry is not yet saved
structure Departed (b : Config) (lease : String) (tr : List Done) (s : Server) : Prop where
  changed : ∃ ev ∈ tr, ev.after.store ≠ ev.before.store
  harmless : ∀ ev ∈ tr, Harmless b ev
  took : ∃ ev ∈ tr, Took ev
  gone : s.store.get lease = none

theorem Idle.step {op : Op} {o : Outcome} {es : List ℕ} (h : Idle b s₀ tr s)
    (hstore : s'.store = (es.foldl (system textLe cfg).env s).store)
    (hharmless : Harmless b ⟨es.foldl (system textLe cfg).env s,op,o,s'⟩)
    (huntaken : ¬ Took ⟨es.foldl (system textLe cfg).env s,op,o,s'⟩) :
    Idle b s₀ (⟨es.foldl (system textLe cfg).env s,op,o,s'⟩ :: tr) s' := by
  refine ⟨?_,?_,?_,?_⟩
  · exact List.forall_mem_cons.mpr ⟨hstore,h.unchanged⟩
  · exact List.forall_mem_cons.mpr ⟨hharmless,h.harmless⟩
  · exact List.forall_mem_cons.mpr ⟨huntaken,h.untaken⟩
  · intro key v hv
    rw [hstore] at hv
    exact h.kept key v (get_of_get_waited hv)

theorem Idle.read {op : Op} {o : Outcome} {a : Ans op} {es : List ℕ} (h : Idle b s₀ tr s)
    (hop : reads op = true)
    (hx : (system textLe cfg).exec (es.foldl (system textLe cfg).env s) op o = some (a,s')) :
    Idle b s₀ (⟨es.foldl (system textLe cfg).env s,op,o,s'⟩ :: tr) s' := by
  have hs := exec_reads hop hx
  apply h.step
  · rw [hs]
  · cases op <;> simp only [reads,Bool.false_eq_true] at hop <;> trivial
  · cases op <;> simp only [reads,Bool.false_eq_true] at hop <;> exact id

theorem Departed.read {lease : String} {op : Op} {o : Outcome} {a : Ans op} {es : List ℕ}
    (h : Departed b lease tr s) (hop : reads op = true)
    (hx : (system textLe cfg).exec (es.foldl (system textLe cfg).env s) op o = some (a,s')) :
    Departed b lease (⟨es.foldl (system textLe cfg).env s,op,o,s'⟩ :: tr) s' := by
  have hs := exec_reads hop hx
  obtain ⟨ev,hev,hchanged⟩ := h.changed
  obtain ⟨ev',hev',htook⟩ := h.took
  refine ⟨⟨ev,List.mem_cons_of_mem _ hev,hchanged⟩,?_,⟨ev',List.mem_cons_of_mem _ hev',htook⟩,?_⟩
  · refine List.forall_mem_cons.mpr ⟨?_,h.harmless⟩
    cases op <;> simp only [reads,Bool.false_eq_true] at hop <;> trivial
  · rw [hs]
    cases hg : (es.foldl (system textLe cfg).env s).store.get lease with
    | none => rfl
    | some v =>
      have hv := get_of_get_waited hg
      rw [h.gone] at hv
      cases hv

end Phases

section Steps

variable {textLe : Text → Text → Bool} {cfg b : Config} {s₀ s : Server} {tr : List Done} {α : Type}

theorem ensures_read_idle {op : Op} {Q : List Done → Except GoError (Ans op) → Server → Prop}
    (h : Idle b s₀ tr s) (hop : reads op = true)
    (hQ : ∀ tr' a s', Idle b s₀ tr' s' → Q tr' (.ok a) s') :
    (system textLe cfg).Ensures Q tr s (Prog.perform op) :=
  fun _ _ _ _ hx => hQ _ _ _ (h.read hop hx)

theorem ensures_ensureOpen {Q : List Done → Except GoError Unit → Server → Prop}
    (h : Idle b s₀ tr s) (hQ : ∀ tr' r s', Idle b s₀ tr' s' → Q tr' r s') :
    (system textLe cfg).Ensures Q tr s ensureOpen := by
  simp only [ensureOpen,Machine.ensures_bind,Machine.ensures_liftExcept]
  exact ensures_read_idle h rfl fun tr' r s' h' => hQ tr' r s' h'

theorem ensures_orNow_idle {t : Time} {Q : List Done → Except GoError Time → Server → Prop}
    (h : Idle b s₀ tr s) (hQ : ∀ tr' t s', Idle b s₀ tr' s' → Q tr' (.ok t) s') :
    (system textLe cfg).Ensures Q tr s (orNow t) := by
  unfold orNow
  rw [Machine.ensures_ite]
  exact ⟨fun _ => ensures_read_idle h rfl hQ,fun _ => hQ _ _ _ h⟩

theorem ensures_readLeasedJob {lease : Lease}
    {Q : List Done → Except GoError (Text × Job) → Server → Prop} (h : Idle b s₀ tr s)
    (herr : ∀ tr' e s', Idle b s₀ tr' s' → Q tr' (.error e) s')
    (hok : ∀ tr' raw job s', Idle b s₀ tr' s' → s₀.store.get (leaseKey b lease.token) = some raw →
      decodeLeased lease raw = .ok job → Q tr' (.ok (raw,job)) s') :
    (system textLe cfg).Ensures Q tr s (readLeasedJob b lease) := by
  simp only [readLeasedJob,Machine.ensures_bind]
  apply ensures_ensureOpen h
  rintro tr₁ (e | _) s₁ h₁
  · exact herr _ _ _ h₁
  simp only [Machine.ensures_ite,Machine.ensures_bind,Machine.ensures_perform]
  refine ⟨fun _ => herr _ _ _ h₁,fun _ => ?_⟩
  intro es x a s₂ hx
  have h₂ := h₁.read rfl hx
  cases a with
  | error e => exact herr _ _ _ h₂
  | ok found =>
    cases found with
    | none => exact herr _ _ _ h₂
    | some raw =>
      simp only [Machine.ensures_bind,Machine.ensures_liftExcept]
      cases hd : decodeLeased lease raw with
      | error e => exact herr _ _ _ h₂
      | ok job =>
        apply hok _ _ _ _ h₂ _ hd
        have hget : (es.foldl (system textLe cfg).env s₁).store.get
            (leaseKey b (trimSpace lease.token)) = some raw := by
          change reply _ _ _ x = _ at hx
          cases x <;> simp only [reply,Option.some.injEq,Prod.mk.injEq,Except.ok.injEq,
            reduceCtorEq,false_and] at hx
          exact hx.1
        rw [leaseKey_trimSpace] at hget
        exact h₁.kept _ _ (get_of_get_waited hget)

theorem transition_taken {r : Redis.Store Text} {lease : String} {expected : Text}
    (ready delayed : String) (encoded : Text) (runAtMs nowMs : Int) (h : r.get lease = some expected) :
    (transitionLeaseScript r lease ready delayed expected encoded runAtMs nowMs).1 = 1 ∧
    (transitionLeaseScript r lease ready delayed expected encoded runAtMs nowMs).2.get lease =
      none := by
  have hdel := Redis.Store.get_del r lease lease
  rw [if_pos rfl] at hdel
  simp only [transitionLeaseScript,h,ne_eq,not_true_eq_false,if_false]
  split
  · exact ⟨rfl,hdel⟩
  · exact ⟨rfl,hdel⟩

theorem transition_untaken {r : Redis.Store Text} {lease : String} {expected : Text}
    (ready delayed : String) (encoded : Text) (runAtMs nowMs : Int) (h : r.get lease ≠ some expected) :
    (transitionLeaseScript r lease ready delayed expected encoded runAtMs nowMs).1 ≠ 1 ∧
    (transitionLeaseScript r lease ready delayed expected encoded runAtMs nowMs).2 = r := by
  rcases transitionLeaseScript_cases r lease ready delayed expected encoded runAtMs nowMs with
    hsame | ⟨hget,_⟩
  · exact hsame
  · exact absurd hget h

theorem exec_transition {s' : Server} {lease ready delayed : String} {expected encoded : Text}
    {runAtMs nowMs : Int} {o : Outcome} {a : Except GoError Int}
    (hx : (system textLe cfg).exec s
      (.transitionLeaseScript lease ready delayed expected encoded runAtMs nowMs) o = some (a,s')) :
    (s.store.get lease ≠ some expected ∧ s'.store = s.store ∧ a ≠ .ok 1) ∨
    (∃ e, o = .lostRequest e ∧ s'.store = s.store ∧ a = .error e) ∨
    s.store.get lease = some expected ∧ s'.store.get lease = none ∧
      (o = .done ∧ a = .ok 1 ∨ ∃ e, o = .lostReply e ∧ a = .error e) := by
  change reply _ _ _ o = _ at hx
  by_cases htaken : s.store.get lease = some expected
  · obtain ⟨hone,hgone⟩ := transition_taken ready delayed encoded runAtMs nowMs htaken
    cases o <;> simp only [reply,Option.some.injEq,Prod.mk.injEq,reduceCtorEq] at hx
    · obtain ⟨rfl,rfl⟩ := hx
      exact .inr (.inr ⟨htaken,hgone,.inl ⟨rfl,congrArg Except.ok hone⟩⟩)
    · obtain ⟨rfl,rfl⟩ := hx
      exact .inr (.inl ⟨_,rfl,rfl,rfl⟩)
    · obtain ⟨rfl,rfl⟩ := hx
      exact .inr (.inr ⟨htaken,hgone,.inr ⟨_,rfl,rfl⟩⟩)
  · obtain ⟨hne,hsame⟩ := transition_untaken ready delayed encoded runAtMs nowMs htaken
    left
    refine ⟨htaken,?_⟩
    cases o <;> simp only [reply,Option.some.injEq,Prod.mk.injEq,reduceCtorEq] at hx
    all_goals
      obtain ⟨rfl,rfl⟩ := hx
      simp [hsame,hne]

theorem ensures_transitionResult {a : Except GoError Int} {s' : Server}
    {Q : List Done → Except GoError Unit → Server → Prop} (ha : a ≠ .ok 1)
    (herr : ∀ e, Q tr (.error e) s') :
    (system textLe cfg).Ensures Q tr s' (transitionResult a) := by
  unfold transitionResult
  split
  · exact herr _
  · exact absurd rfl ha
  all_goals exact herr _

theorem ensures_transitionLeaseToQueue {lease : Lease} {expected encoded : Text} {queue : String}
    {runAt : Time} {Q : List Done → Except GoError Unit → Server → Prop} (h : Idle b s₀ tr s)
    (herr : ∀ tr' e s', Idle b s₀ tr' s' → Q tr' (.error e) s')
    (hlost : ∀ tr' e s', (∃ ev ∈ tr', ev.after.store ≠ ev.before.store) →
      (∃ ev ∈ tr', ¬ Harmless b ev) → Q tr' (.error e) s')
    (hok : ∀ tr' s', Departed b (leaseKey b lease.token) tr' s' → Q tr' (.ok ()) s') :
    (system textLe cfg).Ensures Q tr s
      (transitionLeaseToQueue b lease expected encoded queue runAt) := by
  simp only [transitionLeaseToQueue,Machine.ensures_bind]
  apply ensures_ensureOpen h
  rintro tr₁ (e | _) s₁ h₁
  · exact herr _ _ _ h₁
  simp only [Machine.ensures_ite,Machine.ensures_bind]
  refine ⟨fun _ => herr _ _ _ h₁,fun _ => ⟨fun _ => herr _ _ _ h₁,fun _ => ⟨fun _ =>
    herr _ _ _ h₁,fun _ => ⟨fun _ => herr _ _ _ h₁,fun _ => ?_⟩⟩⟩⟩
  apply ensures_orNow_idle h₁
  intro tr₂ runAtUTC s₂ h₂
  apply ensures_read_idle h₂ rfl
  intro tr₃ t s₃ h₃
  simp only [Machine.ensures_perform]
  intro es x a s₄ hx
  rcases exec_transition hx with ⟨huntaken,hsame,ha⟩ | ⟨e,rfl,hsame,rfl⟩ |
    ⟨htaken,hgone,⟨rfl,rfl⟩ | ⟨e,rfl,rfl⟩⟩
  · apply ensures_transitionResult ha
    intro e
    apply herr
    apply h₃.step hsame
    · cases x <;> trivial
    · cases x <;> first | exact huntaken | exact id
  · apply herr
    exact h₃.step hsame trivial id
  · have hchanged : s₄.store ≠ (es.foldl (system textLe cfg).env s₃).store := by
      intro heq
      rw [heq,htaken] at hgone
      cases hgone
    apply hok
    refine ⟨⟨_,List.mem_cons_self,hchanged⟩,?_,⟨_,List.mem_cons_self,htaken⟩,?_⟩
    · exact List.forall_mem_cons.mpr ⟨trivial,h₃.harmless⟩
    · rw [leaseKey_trimSpace] at hgone
      exact hgone
  · have hchanged : s₄.store ≠ (es.foldl (system textLe cfg).env s₃).store := by
      intro heq
      rw [heq,htaken] at hgone
      cases hgone
    apply hlost
    · exact ⟨_,List.mem_cons_self,hchanged⟩
    · exact ⟨_,List.mem_cons_self,fun hharmless => hharmless htaken⟩

end Steps

section Saving

variable {textLe : Text → Text → Bool} {cfg b : Config} {s₀ s : Server} {tr : List Done}

theorem ensures_now_departed {lease : String} {Q : List Done → Except GoError Time → Server → Prop}
    (h : Departed b lease tr s)
    (hQ : ∀ tr' t s', Departed b lease tr' s' → lastReading tr' = some t → Q tr' (.ok t) s') :
    (system textLe cfg).Ensures Q tr s now := by
  intro es x t s' hx
  apply hQ _ _ _ (h.read rfl hx)
  cases x <;> simp only [system,exec,Option.some.injEq,Prod.mk.injEq,reduceCtorEq] at hx
  rw [← hx.1]
  rfl

theorem ensures_orNow_departed {lease : String} {t : Time}
    {Q : List Done → Except GoError Time → Server → Prop} (h : Departed b lease tr s)
    (hread : lastReading tr = some t)
    (hQ : ∀ tr' t s', Departed b lease tr' s' → lastReading tr' = some t → Q tr' (.ok t) s') :
    (system textLe cfg).Ensures Q tr s (orNow t) := by
  unfold orNow
  rw [Machine.ensures_ite]
  exact ⟨fun _ => ensures_now_departed h hQ,fun _ => hQ _ _ _ h hread⟩

theorem ensures_randomToken_departed {lease : String}
    {Q : List Done → Except GoError String → Server → Prop} (h : Departed b lease tr s)
    (hQ : ∀ tr' id s', Departed b lease tr' s' → hexToken id = true → Q tr' (.ok id) s') :
    (system textLe cfg).Ensures Q tr s randomToken := by
  intro es x id s' hx
  apply hQ _ _ _ (h.read rfl hx)
  cases x <;> simp only [system,exec,reduceCtorEq] at hx
  split_ifs at hx with hhex
  simp only [Option.some.injEq,Prod.mk.injEq] at hx
  rw [← hx.1]
  exact hhex

theorem exec_saveEntry {s' : Server} (entry : DLQRecord) {score : Int} {o : Outcome}
    {a : Except GoError Unit}
    (hx : (system textLe cfg).exec s (.saveEntry (dlqEntryKey b entry.originalQueue entry.id)
      (.record entry) (dlqIndexKey b entry.originalQueue) score entry.id) o = some (a,s')) :
    (o = .done ∧ a = .ok () ∧ s'.store = saved b entry score s.store) ∨
    o ≠ .done ∧ ∃ e, a = .error e := by
  simp only [system,exec] at hx
  split_ifs at hx
  cases o <;> simp only [reply,Option.some.injEq,Prod.mk.injEq,reduceCtorEq] at hx
  · obtain ⟨rfl,rfl⟩ := hx
    exact .inl ⟨rfl,rfl,rfl⟩
  · exact .inr ⟨by simp,_,hx.1.symm⟩
  · exact .inr ⟨by simp,_,hx.1.symm⟩

theorem atomic_iff_of_changed {lease : Lease} {e : GoError}
    (hchanged : ∃ ev ∈ tr, ev.after.store ≠ ev.before.store) (hclean : ¬ Clean b tr) :
    Atomic textLe b s₀ lease tr (.error e) s ↔ Clean b tr := by
  obtain ⟨ev,hev,hne⟩ := hchanged
  exact ⟨fun h => absurd (h ev hev) hne,fun h => absurd h hclean⟩

theorem atomic_iff_of_idle {lease : Lease} {e : GoError} (h : Idle b s₀ tr s) :
    Atomic textLe b s₀ lease tr (.error e) s ↔ Clean b tr := by
  refine ⟨fun _ => ⟨h.harmless,?_⟩,fun _ => h.unchanged⟩
  rintro ⟨ev,hev,htook⟩
  exact absurd htook (h.untaken ev hev)

theorem leaseKey_ne_dlqEntryKey (token queue id : String) :
    leaseKey b token ≠ dlqEntryKey b queue id := by
  intro heq
  have hkey := isLeaseKey_leaseKey (b := b) token
  rw [heq,isLeaseKey_dlqEntryKey] at hkey
  cases hkey

-- what the call was given: the lease holds a job, and this is its entry
structure EntryOf (b : Config) (s₀ : Server) (lease : Lease) (entry : DLQRecord) where
  raw : Text
  job : Job
  buried : Job
  holds : s₀.store.get (leaseKey b lease.token) = some raw
  decoded : decodeLeased lease raw = .ok job
  queue : entry.originalQueue = trimSpace job.queue
  named : trimSpace job.queue ≠ ""
  carries : entry.job = some buried
  same : buried.id = job.id

theorem EntryOf.index {lease : Lease} {entry : DLQRecord} (h : EntryOf b s₀ lease entry) :
    dlqIndexKey b h.job.queue = dlqIndexKey b entry.originalQueue := by
  rw [h.queue]
  simp [dlqIndexKey]

theorem EntryOf.recordAt {lease : Lease} {entry : DLQRecord} (h : EntryOf b s₀ lease entry)
    (r : Redis.Store Text) :
    recordAt b r h.job.queue = RedisBackend.recordAt b r entry.originalQueue := by
  rw [h.queue,recordAt_trimSpace]

theorem buried_saved_iff (textLe : Text → Text → Bool) {lease : Lease} {entry : DLQRecord} {score : Int} {s' : Server}
    (h : EntryOf b s₀ lease entry) (hgone : s.store.get (leaseKey b lease.token) = none)
    (hstore : s'.store = saved b entry score s.store) :
    Buried textLe b s' lease h.job ↔ Unlisted b entry s.store := by
  have hlease : s'.store.get (leaseKey b lease.token) = none := by
    rw [hstore,get_saved,if_neg (leaseKey_ne_dlqEntryKey _ _ _),hgone]
  have hcount : Buried textLe b s' lease h.job ↔ _ :=
    (and_iff_right hlease).trans (listed_count (isFor h.job.id) h.named 1)
  rw [hcount,h.index,h.recordAt,hstore,← h.same]
  exact saved_count h.carries

theorem atomic_iff_of_saved {lease : Lease} {entry : DLQRecord} {score : Int} {s' : Server}
    {es : List ℕ} (h : EntryOf b s₀ lease entry)
    (hdep : Departed b (leaseKey b lease.token) tr s)
    (hread : lastReading tr = some entry.failedAt) (hyear : inYearRange entry.failedAt = true)
    (hstore : s'.store = saved b entry score (es.foldl (system textLe cfg).env s).store) :
    Atomic textLe b s₀ lease (⟨es.foldl (system textLe cfg).env s,
      .saveEntry (dlqEntryKey b entry.originalQueue entry.id) (.record entry)
        (dlqIndexKey b entry.originalQueue) score entry.id,.done,s'⟩ :: tr) (.ok ()) s' ↔
    Clean b (⟨es.foldl (system textLe cfg).env s,
      .saveEntry (dlqEntryKey b entry.originalQueue entry.id) (.record entry)
        (dlqIndexKey b entry.originalQueue) score entry.id,.done,s'⟩ :: tr) := by
  have hgone : (es.foldl (system textLe cfg).env s).store.get (leaseKey b lease.token) = none := by
    cases hg : (es.foldl (system textLe cfg).env s).store.get (leaseKey b lease.token) with
    | none => rfl
    | some v =>
      have hv := get_of_get_waited hg
      rw [hdep.gone] at hv
      cases hv
  have hburied := buried_saved_iff textLe h hgone hstore
  constructor
  · rintro ⟨raw,job,hraw,hjob,hb⟩
    rw [h.holds,Option.some.injEq] at hraw
    subst hraw
    rw [h.decoded,Except.ok.injEq] at hjob
    subst hjob
    refine ⟨List.forall_mem_cons.mpr ⟨hburied.mp hb,hdep.harmless⟩,fun _ t ht => ?_⟩
    change lastReading tr = some t at ht
    rw [hread,Option.some.injEq] at ht
    exact ht ▸ hyear
  · intro hclean
    exact ⟨h.raw,h.job,h.holds,h.decoded,hburied.mpr (hclean.1 _ List.mem_cons_self)⟩

theorem marshalRecord_eq {entry : DLQRecord} {job : Job} (hjob : entry.job = some job)
    (hmarshal : marshalable job = true) : marshalRecord entry =
      if inYearRange entry.failedAt = true then .ok (.record entry) else .error yearError := by
  simp [marshalRecord,hjob,hmarshal]

theorem ensures_saveDLQEntry {lease : Lease} {entry : DLQRecord} (h : EntryOf b s₀ lease entry)
    (hdep : Departed b (leaseKey b lease.token) tr s)
    (hread : lastReading tr = some entry.failedAt) (hid : hexToken entry.id = true)
    (hmarshal : marshalable h.buried = true) :
    (system textLe cfg).Ensures (fun tr r s' => Atomic textLe b s₀ lease tr r s' ↔ Clean b tr) tr s
      (saveDLQEntry b entry) := by
  have hqueue : trimSpace entry.originalQueue = entry.originalQueue := by
    rw [h.queue,trimSpace_trimSpace]
  have hnamed : entry.originalQueue ≠ "" := h.queue ▸ h.named
  have htoken : orRandomToken entry.id = pure entry.id := by
    rw [orRandomToken,trimSpace_hexToken hid,if_neg (hexToken_ne_empty hid)]
  unfold saveDLQEntry
  rw [hqueue]
  simp only [if_neg hnamed,htoken,Machine.ensures_bind,Machine.ensures_pure]
  apply ensures_orNow_departed hdep hread
  intro tr₁ failedAt s₁ h₁ hread₁
  have h' : EntryOf b s₀ lease { entry with failedAt := failedAt } := { h with }
  have hrecord : marshalRecord { entry with failedAt := failedAt } = _ :=
    marshalRecord_eq h.carries hmarshal
  dsimp only at hrecord ⊢
  rw [hrecord]
  by_cases hyear : inYearRange failedAt = true
  · rw [if_pos hyear]
    simp only [Machine.ensures_bind,Machine.ensures_perform,Machine.ensures_liftExcept]
    intro es x a s₂ hx
    rcases exec_saveEntry { entry with failedAt := failedAt } hx with ⟨rfl,rfl,hstore⟩ | ⟨hfault,e,rfl⟩
    · exact atomic_iff_of_saved h' h₁ hread₁ hyear hstore
    · obtain ⟨ev,hev,hne⟩ := h₁.changed
      apply atomic_iff_of_changed ⟨ev,List.mem_cons_of_mem _ hev,hne⟩
      intro hclean
      have hharmless := hclean.1 _ List.mem_cons_self
      cases x <;> first | exact hfault rfl | exact hharmless
  · rw [if_neg hyear]
    apply atomic_iff_of_changed h₁.changed
    exact fun hclean => hyear (hclean.2 h₁.took failedAt hread₁)

theorem marshalable_of_marshalEnvelope {job : Job} {v : Text} (h : marshalEnvelope job = .ok v) :
    marshalable job = true := by
  unfold marshalEnvelope at h
  split_ifs at h with hm
  exact hm

theorem ensures_moveToDLQ (lease : Lease) (reason : Option GoError) :
    (system textLe cfg).Ensures (fun tr r s' => Atomic textLe b s lease tr r s' ↔ Clean b tr) [] s
      (moveToDLQ b lease reason) := by
  have hstart : Idle b s [] s := ⟨by simp,by simp,by simp,fun _ _ h => h⟩
  simp only [moveToDLQ,Machine.ensures_bind]
  apply ensures_readLeasedJob hstart
  · exact fun tr e s' h => atomic_iff_of_idle h
  intro tr₁ raw job s₁ h₁ hraw hdec
  obtain ⟨-,-,-,hvalid⟩ := decodeLeased_eq_ok hdec
  apply ensures_read_idle h₁ rfl
  intro tr₂ failedAt s₂ h₂
  simp only [if_neg hvalid.queue]
  cases hm : marshalEnvelope (dlqJob b job (trimSpace job.queue) reason failedAt) with
  | error e => exact atomic_iff_of_idle h₂
  | ok encoded =>
    simp only [Machine.ensures_bind]
    apply ensures_read_idle h₂ rfl
    intro tr₃ runAt s₃ h₃
    apply ensures_transitionLeaseToQueue h₃
    · exact fun tr e s' h => atomic_iff_of_idle h
    · rintro tr e s' hchanged ⟨ev,hev,hharm⟩
      exact atomic_iff_of_changed hchanged fun hclean => hharm (hclean.1 ev hev)
    intro tr₄ s₄ h₄
    apply ensures_randomToken_departed h₄
    intro tr₅ id s₅ h₅ hhex
    apply ensures_now_departed h₅
    intro tr₆ t s₆ h₆ hread
    exact ensures_saveDLQEntry ⟨raw,job,_,hraw,hdec,rfl,hvalid.queue,rfl,rfl⟩ h₆ hread hhex
      (marshalable_of_marshalEnvelope hm)

end Saving

section MoveToDLQ

variable {textLe : Text → Text → Bool} {cfg : Config} {s s' : Server} {lease : Lease}
  {reason : Option GoError} {schedule : List (List ℕ × Outcome)} {tr : List Done}
  {r : Except GoError Unit}

theorem moveToDLQ_atomic_iff
    (h : (system textLe cfg).alone schedule [] s (moveToDLQ cfg.normalize lease reason) =
      some (tr,r,s')) :
    Atomic textLe cfg.normalize s lease tr r s' ↔ Clean cfg.normalize tr :=
  (system textLe cfg).post_of_alone (ensures_moveToDLQ lease reason) h

def moving (save : Outcome) : List (List ℕ × Outcome) :=
  [([],.done),([],.done),([],.at (3*second)),([],.at (3*second)),([],.done),([],.at (3*second)),
    ([],.done),([],.token "b2"),([],.at (3*second)),([],save)]

-- enough for a step to be harmless
def calm (ev : Done) : Bool :=
  match ev.op,ev.choice with
  | .transitionLeaseScript ..,.lostReply _ => false
  | .saveEntry _ (.record _) _ _ _,.done => ev.before.store.zsets.isEmpty
  | .saveEntry ..,_ => false
  | _,_ => true

theorem harmless_of_calm {b : Config} {ev : Done} (h : calm ev = true) : Harmless b ev := by
  obtain ⟨before,op,choice,after⟩ := ev
  cases op with
  | transitionLeaseScript => cases choice <;> trivial
  | saveEntry entryKey val indexKey score id =>
    cases val with
    | record entry =>
      cases choice with
      | done =>
        rintro id _ ⟨z,hz,_⟩
        rw [List.isEmpty_iff.mp h] at hz
        cases hz
      | _ => cases h
    | _ => cases choice <;> cases h
  | _ => trivial

theorem move_buries_mail : ∃ c tr s',
    (system anyOrder emptyConfig).run (enqueueMail ++ reserveMail) start = some c ∧
    (system anyOrder emptyConfig).alone (moving .done) [] c.shared
      (moveToDLQ emptyConfig.normalize (tokenLease "a1") none) = some (tr,.ok (),s') ∧
    Atomic anyOrder emptyConfig.normalize c.shared (tokenLease "a1") tr (.ok ()) s' := by
  have hrun : ((system anyOrder emptyConfig).run (enqueueMail ++ reserveMail) start).any (fun c =>
      ((system anyOrder emptyConfig).alone (moving .done) [] c.shared
        (moveToDLQ emptyConfig.normalize (tokenLease "a1") none)).any fun x =>
          x.2.1.isOk && x.1.all calm && (lastReading x.1).all inYearRange) = true := by
    decide +kernel
  obtain ⟨c,hc,hmove⟩ := (Option.any_eq_true _ _).mp hrun
  obtain ⟨⟨tr,r,s'⟩,hx,hfacts⟩ := (Option.any_eq_true _ _).mp hmove
  simp only [Bool.and_eq_true] at hfacts
  cases r with
  | error e => simp [Except.isOk,Except.toBool] at hfacts
  | ok _ =>
    refine ⟨c,tr,s',hc,hx,(moveToDLQ_atomic_iff hx).mpr ⟨?_,?_⟩⟩
    · exact fun ev hev => harmless_of_calm (List.all_eq_true.mp hfacts.1.2 ev hev)
    · intro _ t ht
      simpa [ht] using hfacts.2

theorem lost_save_strands_mail : ∃ c tr e s',
    (system anyOrder emptyConfig).run (enqueueMail ++ reserveMail) start = some c ∧
    (system anyOrder emptyConfig).alone (moving (.lostRequest .contextCanceled)) [] c.shared
      (moveToDLQ emptyConfig.normalize (tokenLease "a1") none) = some (tr,.error e,s') ∧
    s'.store.get (leaseKey emptyConfig.normalize "a1") = none ∧
    ¬ Atomic anyOrder emptyConfig.normalize c.shared (tokenLease "a1") tr (.error e) s' := by
  have hrun : ((system anyOrder emptyConfig).run (enqueueMail ++ reserveMail) start).any (fun c =>
      ((system anyOrder emptyConfig).alone (moving (.lostRequest .contextCanceled)) [] c.shared
        (moveToDLQ emptyConfig.normalize (tokenLease "a1") none)).any fun x =>
          !x.2.1.isOk && x.2.2.store.get (leaseKey emptyConfig.normalize "a1") = none &&
          x.1.any fun ev => ev.after.store.get (leaseKey emptyConfig.normalize "a1") ≠
            ev.before.store.get (leaseKey emptyConfig.normalize "a1")) = true := by
    decide +kernel
  obtain ⟨c,hc,hmove⟩ := (Option.any_eq_true _ _).mp hrun
  obtain ⟨⟨tr,r,s'⟩,hx,hfacts⟩ := (Option.any_eq_true _ _).mp hmove
  simp only [Bool.and_eq_true,decide_eq_true_eq,List.any_eq_true] at hfacts
  obtain ⟨⟨hfailed,hgone⟩,ev,hev,hne⟩ := hfacts
  cases r with
  | ok _ => simp [Except.isOk,Except.toBool] at hfailed
  | error e =>
    refine ⟨c,tr,e,s',hc,hx,hgone,fun hatomic => hne ?_⟩
    rw [hatomic ev hev]

end MoveToDLQ

end Nimburion.Jobs.RedisBackend
