import Nimburion.Jobs.RedisServer

namespace Nimburion.Jobs.RedisBackend
open Interaction GoText GoTime

abbrev Trace := List (Event Ans)

def Text.work (v : Text) : Option Job.Work := v.job?.map Job.work

def isPush (ev : Event Ans) : Bool :=
  match ev.op with
  | .rpush .. => true
  | .zadd .. => true
  | _ => false

def held : Trace → Option (String × Text)
  | [] => none
  | ⟨.rpush ..,_⟩ :: _ => none
  | ⟨.zadd ..,_⟩ :: _ => none
  | ⟨.get key,.ok (some raw)⟩ :: _ => some (key,raw)
  | ⟨.get _,.ok none⟩ :: _ => none
  | ⟨.get _,.error _⟩ :: _ => none
  | _ :: tr => held tr

def pushes (tr : Trace) : ℕ := tr.countP isPush

def Stamped (j job : Job) : Prop :=
  job.work = { j with createdAt := job.createdAt }.work ∧ job.queue = j.queue ∧
    (isZero j.createdAt = false → job.createdAt = j.createdAt)

def Replays (call : Call) : Prop := ∃ queue ids, call = .replayDLQ queue ids

def Origin (call : Call) (tr : Trace) (job : Job) : Source → Prop
  | .client => ∃ j, call = .enqueue j ∧ Stamped j job ∧ pushes tr = 0
  | .replay key => Replays call ∧
      ∃ raw entry j, held tr = some (key,raw) ∧ raw.unmarshalRecord = some entry ∧
        entry.job = some j ∧ job.id = j.id ∧ job.queue = entry.originalQueue

def Transitioned (lease : String) (tr : Trace) : Prop :=
  ∃ ready delayed expected encoded runAtMs nowMs,
    (⟨.transitionLeaseScript lease ready delayed expected encoded runAtMs nowMs,.ok 1⟩ :
      Event Ans) ∈ tr

def Settles (call : Call) (lease : Lease) : Prop :=
  (∃ nextRunAt reason, call = .nack lease nextRunAt reason) ∨
    ∃ reason, call = .moveToDLQ lease reason

def Reserves (call : Call) : Prop :=
  ∃ queue leaseFor ctxErr rounds, call = .reserve queue leaseFor ctxErr rounds

def Permitted (b : Config) (call : Call) (tr : Trace) : Op → Prop
  | .rpush src key val => ∃ job, val = .envelope (some job) ∧ job.Valid ∧
      key = readyKey b job.queue ∧ Origin call tr job src
  | .zadd src key _ member => ∃ job, member = .envelope (some job) ∧ job.Valid ∧
      key = delayedKey b job.queue ∧ Origin call tr job src
  | .reserveScript delayed ready leasePrefix _ _ _ _ => Reserves call ∧
      leasePrefix = leaseKeyPrefix b ∧ ∃ queue, delayed = delayedKey b queue ∧
        ready = readyKey b queue
  | .getAndDeleteScript key => ∃ token, key = leaseKey b token
  | .transitionLeaseScript lease ready delayed expected encoded _ _ =>
      (∃ l, Settles call l ∧ lease = leaseKey b l.token) ∧
      (∃ queue, ready = readyKey b queue ∧ delayed = delayedKey b queue) ∧
      ∃ job job', expected.job? = some job ∧ encoded = .envelope (some job') ∧
        job'.work = job.work
  | .saveEntry entryKey _ _ _ _ => (∃ queue id, entryKey = dlqEntryKey b queue id) ∧
      ∃ l, Settles call l ∧ Transitioned (leaseKey b l.token) tr
  | .removeEntry _ _ entryKey => Replays call ∧ ∃ queue id, entryKey = dlqEntryKey b queue id
  | _ => True

def discipline (b : Config) (call : Call) : Spec Ans where
  pre := Permitted b call
  ans _ _ := True

def Pushed (job : Job) (tr : Trace) : Prop :=
  ∃ key, (⟨.rpush .client key (.envelope (some job)),.ok ()⟩ : Event Ans) ∈ tr ∨
    ∃ score, (⟨.zadd .client key score (.envelope (some job)),.ok ()⟩ : Event Ans) ∈ tr

def result (b : Config) (call : Call) (tr : Trace) (r : Except GoError Reply) : Prop :=
  match call,r with
  | .enqueue j,.ok _ => ∃ job, Stamped j job ∧ Pushed job tr
  | .nack lease _ _,.ok _ => Transitioned (leaseKey b lease.token) tr
  | .moveToDLQ lease _,.ok _ => Transitioned (leaseKey b lease.token) tr
  | _,_ => True

section Meets

variable (b : Config) (call : Call)

theorem meets_ensureOpen {post : Trace → Except GoError Unit → Prop} {tr : Trace}
    (h : ∀ r, post (⟨.ensureOpen,r⟩ :: tr) r) :
    Prog.Meets (discipline b call) post tr ensureOpen := by
  simp only [ensureOpen,Prog.meets_bind,Prog.meets_perform,Prog.meets_liftExcept]
  exact ⟨trivial,fun r _ => h r⟩

theorem meets_now {post : Trace → Except GoError Time → Prop} {tr : Trace}
    (h : ∀ t, post (⟨.now,t⟩ :: tr) (.ok t)) :
    Prog.Meets (discipline b call) post tr now := ⟨trivial,fun t _ => h t⟩

theorem meets_orNow {post : Trace → Except GoError Time → Prop} {tr : Trace} (t : Time)
    (h : ∀ u tr', tr <:+ tr' → held tr' = held tr → pushes tr' = pushes tr →
      (isZero t = false → u = t) → post tr' (.ok u)) :
    Prog.Meets (discipline b call) post tr (orNow t) := by
  unfold orNow
  rw [Prog.meets_ite]
  refine ⟨fun hz => meets_now b call fun u => ?_,fun _ => ?_⟩
  · exact h u _ (List.suffix_cons _ _) rfl rfl (by simp [hz])
  · exact h t _ (List.suffix_refl _) rfl rfl fun _ => rfl

theorem meets_randomToken {post : Trace → Except GoError String → Prop} {tr : Trace}
    (h : ∀ t, post (⟨.randomToken,t⟩ :: tr) (.ok t)) :
    Prog.Meets (discipline b call) post tr randomToken := ⟨trivial,fun t _ => h t⟩

theorem meets_orRandomToken {post : Trace → Except GoError String → Prop} {tr : Trace}
    (id : String) (h : ∀ t tr', tr <:+ tr' → post tr' (.ok t)) :
    Prog.Meets (discipline b call) post tr (orRandomToken id) := by
  unfold orRandomToken
  rw [Prog.meets_ite]
  refine ⟨fun _ => meets_randomToken b call fun t => ?_,fun _ => ?_⟩
  · exact h t _ (List.suffix_cons _ _)
  · exact h id _ (List.suffix_refl _)

theorem marshalEnvelope_eq_ok {j : Job} {v : Text} (h : marshalEnvelope j = .ok v) :
    v = .envelope (some j) := by
  unfold marshalEnvelope at h
  split_ifs at h
  exact (Except.ok.inj h).symm

theorem meets_pushEncoded {src : Source} {job : Job} {now : Time}
    {post : Trace → Except GoError Unit → Prop} {tr : Trace}
    (herr : ∀ tr' e, post tr' (.error e)) (hvalid : job.Valid) (horigin : Origin call tr job src)
    (hrpush : ∀ key, post (⟨.rpush src key (.envelope (some job)),.ok ()⟩ :: tr) (.ok ()))
    (hzadd : ∀ key score,
      post (⟨.zadd src key score (.envelope (some job)),.ok ()⟩ :: tr) (.ok ())) :
    Prog.Meets (discipline b call) post tr (pushEncoded b src job (.envelope (some job)) now) := by
  simp only [pushEncoded,Prog.meets_ite,Prog.meets_bind,Prog.meets_perform,Prog.meets_liftExcept]
  constructor
  all_goals
    intro _
    refine ⟨⟨job,rfl,hvalid,rfl,horigin⟩,?_⟩
    rintro (e | _) _
  · exact herr _ _
  · exact hrpush _
  · exact herr _ _
  · exact hzadd _ _

theorem stamped_stamp (job : Job) (createdAt : Time)
    (h : isZero job.createdAt = false → createdAt = job.createdAt) :
    Stamped job (stamp job createdAt) := ⟨rfl,rfl,h⟩

theorem valid_stamp {job : Job} (createdAt : Time) (h : job.Valid) :
    (stamp job createdAt).Valid :=
  ⟨h.id,h.name,h.queue,h.payload,h.attempt,h.maxAttempts,h.within⟩

theorem meets_enqueueFrom {src : Source} {job : Job} {post : Trace → Except GoError Unit → Prop}
    {tr : Trace} (herr : ∀ tr' e, post tr' (.error e))
    (horigin : ∀ tr' job', held tr' = held tr → pushes tr' = pushes tr → Stamped job job' →
      Origin call tr' job' src)
    (hrpush : ∀ tr' job' key, Stamped job job' →
      post (⟨.rpush src key (.envelope (some job')),.ok ()⟩ :: tr') (.ok ()))
    (hzadd : ∀ tr' job' key score, Stamped job job' →
      post (⟨.zadd src key score (.envelope (some job')),.ok ()⟩ :: tr') (.ok ())) :
    Prog.Meets (discipline b call) post tr (enqueueFrom b src job) := by
  unfold enqueueFrom
  simp only [Prog.meets_bind]
  apply meets_ensureOpen
  rintro (e | _)
  · exact herr _ _
  simp only [Prog.meets_liftExcept]
  cases hv : job.validate with
  | error e => exact herr _ _
  | ok _ =>
    have hvalid := (Job.validate_ok_iff job).mp hv
    apply meets_orNow
    intro createdAt tr' _ hheld hpushes hcreated
    have hs := stamped_stamp job createdAt hcreated
    dsimp only
    cases hm : marshalEnvelope (stamp job createdAt) with
    | error e => exact herr _ _
    | ok encoded =>
      rw [marshalEnvelope_eq_ok hm]
      simp only [Prog.meets_bind]
      apply meets_now
      intro t
      exact meets_pushEncoded b call herr (valid_stamp createdAt hvalid)
        (horigin _ _ hheld hpushes hs) (fun key => hrpush _ _ key hs)
        (fun key score => hzadd _ _ key score hs)

theorem leaseKey_trimSpace (token : String) : leaseKey b (trimSpace token) = leaseKey b token := by
  simp [leaseKey]

theorem meets_ack {lease : Lease} {post : Trace → Except GoError Unit → Prop} {tr : Trace}
    (h : ∀ tr' r, post tr' r) : Prog.Meets (discipline b call) post tr (ack b lease) := by
  unfold ack
  simp only [Prog.meets_bind]
  apply meets_ensureOpen
  rintro (e | _)
  · exact h _ _
  simp only [Prog.meets_ite,Prog.meets_bind,Prog.meets_perform]
  refine ⟨fun _ => h _ _,fun _ => ⟨⟨_,rfl⟩,?_⟩⟩
  rintro (e | v) _ <;> exact h _ _

theorem meets_reserveLoop {queue : String} {leaseFor leaseMs : Int} {ctxErr : GoError}
    {post : Trace → Except GoError (Job × Lease) → Prop} (hcall : Reserves call)
    (h : ∀ tr' r, post tr' r) (rounds : ℕ) (tr : Trace) : Prog.Meets (discipline b call) post tr
      (reserveLoop b queue leaseFor leaseMs ctxErr rounds) := by
  induction rounds generalizing tr with
  | zero => exact h _ _
  | succ rounds ih =>
    have discard : ∀ (token : String) (tr' : Trace), Prog.Meets (discipline b call) post tr' (do
        let _ ← Prog.attempt (ack b (tokenLease token))
        reserveLoop b queue leaseFor leaseMs ctxErr rounds) := by
      intro token tr'
      simp only [Prog.meets_bind,Prog.meets_attempt]
      apply meets_ack
      intro tr'' r
      exact ih tr''
    simp only [reserveLoop,Prog.meets_bind]
    apply meets_randomToken
    intro token
    apply meets_now
    intro t
    simp only [Prog.meets_perform]
    refine ⟨⟨hcall,rfl,queue,rfl,rfl⟩,?_⟩
    rintro (e | _ | raw) _
    · exact h _ _
    · exact ih _
    · simp only [Prog.meets_ite]
      refine ⟨fun _ => ih _,fun _ => ?_⟩
      · cases decodeQueued queue raw with
        | none => exact discard _ _
        | some job => exact h _ _

theorem meets_reserve {queue : String} {leaseFor : Duration} {ctxErr : GoError} {rounds : ℕ}
    {post : Trace → Except GoError (Job × Lease) → Prop} {tr : Trace} (hcall : Reserves call)
    (h : ∀ tr' r, post tr' r) :
    Prog.Meets (discipline b call) post tr (reserve b queue leaseFor ctxErr rounds) := by
  unfold reserve
  simp only [Prog.meets_bind]
  apply meets_ensureOpen
  rintro (e | _)
  · exact h _ _
  simp only [Prog.meets_ite]
  exact ⟨fun _ => h _ _,fun _ => meets_reserveLoop b call hcall h _ _⟩

theorem work_withQueue (queue : String) (job : Job) : (withQueue queue job).work = job.work := by
  unfold withQueue
  split_ifs <;> rfl

theorem decodeLeased_eq_ok {lease : Lease} {raw : Text} {job : Job}
    (h : decodeLeased lease raw = .ok job) :
    ∃ j, raw.job? = some j ∧ job = withQueue (trimSpace lease.queue) j ∧ job.Valid := by
  unfold decodeLeased at h
  split at h
  · cases h
  · cases h
  · rename_i j hj
    split at h
    · cases h
    · rename_i hv
      cases h
      exact ⟨j,by simp [Text.job?,hj],rfl,(Job.validate_ok_iff _).mp hv⟩

theorem meets_readLeasedJob {lease : Lease} {post : Trace → Except GoError (Text × Job) → Prop}
    {tr : Trace} (herr : ∀ tr' e, post tr' (.error e))
    (hok : ∀ tr' raw job j, raw.job? = some j → job.work = j.work → job.Valid →
      post tr' (.ok (raw,job))) :
    Prog.Meets (discipline b call) post tr (readLeasedJob b lease) := by
  unfold readLeasedJob
  simp only [Prog.meets_bind]
  apply meets_ensureOpen
  rintro (e | _)
  · exact herr _ _
  simp only [Prog.meets_ite,Prog.meets_bind,Prog.meets_perform]
  refine ⟨fun _ => herr _ _,fun _ => ⟨trivial,?_⟩⟩
  rintro (e | _ | raw) _
  · exact herr _ _
  · exact herr _ _
  · simp only [Prog.meets_bind,Prog.meets_liftExcept]
    cases hd : decodeLeased lease raw with
    | error e => exact herr _ _
    | ok job =>
      obtain ⟨j,hj,rfl,hv⟩ := decodeLeased_eq_ok hd
      exact hok _ _ _ j hj (work_withQueue _ j) hv

theorem meets_transitionLeaseToQueue {lease : Lease} {expected encoded : Text} {queue : String}
    {runAt : Time} {post : Trace → Except GoError Unit → Prop} {tr : Trace} {j job : Job}
    (hcall : Settles call lease) (herr : ∀ tr' e, post tr' (.error e))
    (hexpected : expected.job? = some j)
    (hencoded : encoded = .envelope (some job)) (hwork : job.work = j.work)
    (hok : ∀ tr', Transitioned (leaseKey b lease.token) tr' → post tr' (.ok ())) :
    Prog.Meets (discipline b call) post tr
      (transitionLeaseToQueue b lease expected encoded queue runAt) := by
  unfold transitionLeaseToQueue
  simp only [Prog.meets_bind]
  apply meets_ensureOpen
  rintro (e | _)
  · exact herr _ _
  simp only [Prog.meets_ite]
  refine ⟨fun _ => herr _ _,fun _ => ⟨fun _ => herr _ _,fun _ => ⟨fun _ => herr _ _,fun _ =>
    ⟨fun _ => herr _ _,fun _ => ?_⟩⟩⟩⟩
  simp only [Prog.meets_bind]
  apply meets_orNow
  intro runAtUTC tr' _ _ _ _
  apply meets_now
  intro t
  simp only [Prog.meets_perform]
  refine ⟨⟨⟨lease,hcall,leaseKey_trimSpace b _⟩,⟨_,rfl,rfl⟩,j,job,hexpected,hencoded,hwork⟩,?_⟩
  rintro r _
  unfold transitionResult
  split
  · exact herr _ _
  · apply hok
    rw [leaseKey_trimSpace]
    exact ⟨_,_,_,_,_,_,List.mem_cons_self⟩
  all_goals exact herr _ _

theorem meets_nack {lease : Lease} {nextRunAt : Time} {reason : Option GoError}
    {post : Trace → Except GoError Unit → Prop} {tr : Trace} (hcall : Settles call lease)
    (herr : ∀ tr' e, post tr' (.error e))
    (hok : ∀ tr', Transitioned (leaseKey b lease.token) tr' → post tr' (.ok ())) :
    Prog.Meets (discipline b call) post tr (nack b lease nextRunAt reason) := by
  unfold nack
  simp only [Prog.meets_bind]
  apply meets_readLeasedJob
  · exact herr
  intro tr' raw job j hraw hwork hvalid
  apply meets_now
  intro failedAt
  apply meets_orNow
  intro runAt _ _ _ _ _
  dsimp only
  cases hm : marshalEnvelope (retryJob job reason failedAt runAt) with
  | error e => exact herr _ _
  | ok encoded =>
    exact meets_transitionLeaseToQueue b call hcall herr hraw (marshalEnvelope_eq_ok hm) hwork hok

theorem meets_renew {lease : Lease} {leaseFor : Duration} {post : Trace → Except GoError Unit → Prop}
    {tr : Trace} (h : ∀ tr' r, post tr' r) :
    Prog.Meets (discipline b call) post tr (renew b lease leaseFor) := by
  unfold renew
  simp only [Prog.meets_bind]
  apply meets_ensureOpen
  rintro (e | _)
  · exact h _ _
  simp only [Prog.meets_ite,Prog.meets_bind,Prog.meets_perform]
  refine ⟨fun _ => h _ _,fun _ => ⟨trivial,?_⟩⟩
  rintro (e | _ | _) _ <;> exact h _ _

theorem transitioned_of_suffix {lease : String} {tr tr' : Trace} (h : Transitioned lease tr)
    (hsuf : tr <:+ tr') : Transitioned lease tr' := by
  obtain ⟨ready,delayed,expected,encoded,runAtMs,nowMs,hmem⟩ := h
  exact ⟨ready,delayed,expected,encoded,runAtMs,nowMs,hsuf.subset hmem⟩

theorem meets_saveDLQEntry {entry : DLQRecord} {lease : Lease}
    {post : Trace → Except GoError Unit → Prop} {tr : Trace} (hcall : Settles call lease)
    (htrans : Transitioned (leaseKey b lease.token) tr) (herr : ∀ tr' e, post tr' (.error e))
    (hok : ∀ tr', tr <:+ tr' → post tr' (.ok ())) :
    Prog.Meets (discipline b call) post tr (saveDLQEntry b entry) := by
  unfold saveDLQEntry
  rw [Prog.meets_ite]
  refine ⟨fun _ => herr _ _,fun _ => ?_⟩
  simp only [Prog.meets_bind]
  apply meets_orRandomToken
  intro id tr' hid
  apply meets_orNow
  intro failedAt tr'' hfailed _ _ _
  have hsuf := hid.trans hfailed
  dsimp only
  cases marshalRecord { entry with
      id := id
      originalQueue := trimSpace entry.originalQueue
      failedAt := failedAt } with
  | error e => exact herr _ _
  | ok encoded =>
    simp only [Prog.meets_bind,Prog.meets_perform,Prog.meets_liftExcept]
    refine ⟨⟨⟨_,_,rfl⟩,lease,hcall,transitioned_of_suffix htrans hsuf⟩,?_⟩
    rintro (e | _) _
    · exact herr _ _
    · exact hok _ (hsuf.trans (List.suffix_cons _ _))

theorem meets_moveToDLQ {lease : Lease} {reason : Option GoError}
    {post : Trace → Except GoError Unit → Prop} {tr : Trace} (hcall : Settles call lease)
    (herr : ∀ tr' e, post tr' (.error e))
    (hok : ∀ tr', Transitioned (leaseKey b lease.token) tr' → post tr' (.ok ())) :
    Prog.Meets (discipline b call) post tr (moveToDLQ b lease reason) := by
  unfold moveToDLQ
  simp only [Prog.meets_bind]
  apply meets_readLeasedJob
  · exact herr
  intro tr' raw job j hraw hwork hvalid
  apply meets_now
  intro failedAt
  generalize (if trimSpace job.queue = "" then trimSpace lease.queue
    else trimSpace job.queue) = originalQueue
  dsimp only
  split
  · exact herr _ _
  · rename_i encoded hm
    simp only [Prog.meets_bind]
    apply meets_now
    intro t
    dsimp only
    refine meets_transitionLeaseToQueue b call hcall ?_ hraw (marshalEnvelope_eq_ok hm) hwork ?_
    · exact fun tr' e => herr tr' e
    intro tr'' htrans
    apply meets_randomToken
    intro id
    apply meets_now
    intro t'
    dsimp only
    have htrans' := transitioned_of_suffix htrans
      ((List.suffix_cons ⟨.randomToken,id⟩ _).trans (List.suffix_cons ⟨.now,t'⟩ _))
    refine meets_saveDLQEntry b call hcall htrans' herr ?_
    intro tr3 hsuf
    exact hok tr3 (transitioned_of_suffix htrans' hsuf)

theorem meets_listLoop {queue : String} {post : Trace → Except GoError (List DLQRecord) → Prop}
    (h : ∀ tr' r, post tr' r) (ids : List Text) (entries : List DLQRecord) (tr : Trace) :
    Prog.Meets (discipline b call) post tr (listLoop b queue ids entries) := by
  induction ids generalizing entries tr with
  | nil => exact h _ _
  | cons id ids ih =>
    cases id with
    | raw id =>
      simp only [listLoop,Prog.meets_bind,Prog.meets_perform]
      refine ⟨trivial,?_⟩
      rintro (e | _ | raw) _
      · exact h _ _
      · exact ih _ _
      · dsimp only
        cases raw.unmarshalRecord with
        | none => exact ih _ _
        | some entry => exact ih _ _
    | envelope _ => exact ih _ _
    | record _ => exact ih _ _

theorem meets_listDLQ {queue : String} {limit : Int}
    {post : Trace → Except GoError (List DLQRecord) → Prop} {tr : Trace}
    (h : ∀ tr' r, post tr' r) : Prog.Meets (discipline b call) post tr (listDLQ b queue limit) := by
  unfold listDLQ
  simp only [Prog.meets_bind]
  apply meets_ensureOpen
  rintro (e | _)
  · exact h _ _
  simp only [Prog.meets_ite,Prog.meets_bind,Prog.meets_perform]
  refine ⟨fun _ => h _ _,fun _ => ⟨trivial,?_⟩⟩
  rintro (e | ids) _
  · exact h _ _
  · exact meets_listLoop b call h _ _ _

theorem stamped_id {j job : Job} (h : Stamped j job) : job.id = j.id :=
  congrArg Job.Work.id h.1

theorem origin_replay {key : String} {raw : Text} {entry : DLQRecord} {j job : Job} {t : Time}
    {tr : Trace} (hcall : Replays call)
    (hheld : held tr = some (key,raw)) (hentry : raw.unmarshalRecord = some entry)
    (hj : entry.job = some j) (hs : Stamped (replayJob entry j t) job) :
    Origin call tr job (.replay key) :=
  ⟨hcall,raw,entry,j,hheld,hentry,hj,(stamped_id hs : job.id = (replayJob entry j t).id),hs.2.1⟩

theorem meets_replayLoop {queue : String} {post : Trace → Except GoError (ℕ × Option GoError) → Prop}
    (hcall : Replays call) (h : ∀ tr' r, post tr' r)
    (ids : List String) (replayed : ℕ) (tr : Trace) :
    Prog.Meets (discipline b call) post tr (replayLoop b queue ids replayed) := by
  induction ids generalizing replayed tr with
  | nil => exact h _ _
  | cons id ids ih =>
    simp only [replayLoop,Prog.meets_ite,Prog.meets_bind,Prog.meets_perform]
    refine ⟨fun _ => ih _ _,fun _ => ⟨trivial,?_⟩⟩
    rintro (e | _ | raw) _
    · exact h _ _
    · exact ih _ _
    dsimp only
    cases hentry : raw.unmarshalRecord with
    | none => exact ih _ _
    | some entry =>
      dsimp only
      cases hj : entry.job with
      | none => exact h _ _
      | some j =>
        simp only [Prog.meets_bind,Prog.meets_attempt]
        apply meets_now
        intro t
        apply meets_enqueueFrom
        · exact fun _ _ => h _ _
        · intro tr' job' hheld _ hs
          exact origin_replay call hcall (by simpa [held] using hheld) hentry hj hs
        all_goals
          intros
          simp only [Prog.meets_bind,Prog.meets_perform]
          refine ⟨⟨hcall,_,_,rfl⟩,?_⟩
          rintro (e | _) _
          · exact h _ _
          · exact ih _ _

theorem program_meets : Prog.Meets (discipline b call) (result b call) [] (program b call) := by
  cases call with
  | enqueue j =>
    simp only [program,enqueue,Prog.meets_bind]
    apply meets_enqueueFrom
    · exact fun _ _ => trivial
    · exact fun tr' job' _ hpushes hs => ⟨j,rfl,hs,hpushes⟩
    · exact fun tr' job' key hs => ⟨job',hs,key,.inl List.mem_cons_self⟩
    · exact fun tr' job' key score hs => ⟨job',hs,key,.inr ⟨score,List.mem_cons_self⟩⟩
  | reserve queue leaseFor ctxErr rounds =>
    simp only [program,Prog.meets_bind]
    apply meets_reserve b _ ⟨_,_,_,_,rfl⟩
    rintro tr' (e | r) <;> trivial
  | ack lease =>
    simp only [program,Prog.meets_bind]
    apply meets_ack
    rintro tr' (e | r) <;> trivial
  | nack lease nextRunAt reason =>
    simp only [program,Prog.meets_bind]
    exact meets_nack b _ (.inl ⟨_,_,rfl⟩) (fun _ _ => trivial) (fun _ h => h)
  | renew lease leaseFor =>
    simp only [program,Prog.meets_bind]
    apply meets_renew
    rintro tr' (e | r) <;> trivial
  | moveToDLQ lease reason =>
    simp only [program,Prog.meets_bind]
    exact meets_moveToDLQ b _ (.inr ⟨_,rfl⟩) (fun _ _ => trivial) (fun _ h => h)
  | listDLQ queue limit =>
    simp only [program,Prog.meets_bind]
    apply meets_listDLQ
    rintro tr' (e | r) <;> trivial
  | replayDLQ queue ids =>
    simp only [program,replayDLQ,Prog.meets_bind,Prog.meets_attempt]
    apply meets_ensureOpen
    rintro (e | _)
    · trivial
    · simp only [Prog.meets_ite]
      refine ⟨fun _ => trivial,fun _ => ?_⟩
      apply meets_replayLoop b _ ⟨_,_,rfl⟩
      rintro tr' (e | r) <;> trivial

end Meets

end Nimburion.Jobs.RedisBackend
