import Nimburion.Jobs.Transport

namespace Nimburion.Jobs
open GoText GoTime Decimal EventBus

def jobFromEventBusMessage (now : Time) (msg : Message) : Except GoError Job :=
  jobFromEventBusMessageWithQueue now msg ""

-- the years 1 to 9999; the zero time is the first instant of year 1
def InYears (t : Time) : Prop := zeroTime ≤ t ∧ t < yearTenThousand

def reservedKeys : List String := routingKeys ++ identityKeys

def Job.normalized (j : Job) (headers : Headers) : Job where
  id := trimSpace j.id
  name := trimSpace j.name
  queue := trimSpace j.queue
  payload := j.payload
  headers := headers
  contentType := if trimSpace j.contentType = "" then "application/json" else trimSpace j.contentType
  tenantID := trimSpace j.tenantID
  correlationID := trimSpace j.correlationID
  idempotencyKey := trimSpace j.idempotencyKey
  partitionKey := if trimSpace j.partitionKey = "" then jobPartitionKey j.tenantID j.name j.id
    else trimSpace j.partitionKey
  runAt := j.runAt
  attempt := j.attempt
  maxAttempts := j.maxAttempts
  createdAt := j.createdAt

def unlessBlank (value : String) : Option String :=
  if trimSpace value = "" then none else some (trimSpace value)

structure ReservedAdded (j : Job) (headers : Headers) : Prop where
  kept : ∀ k ∉ reservedKeys, headers.lookup k = j.headers.lookup k
  id : headers.lookup headerJobID = some (trimSpace j.id)
  name : headers.lookup headerJobName = some (trimSpace j.name)
  queue : headers.lookup headerJobQueue = some (trimSpace j.queue)
  runAt : headers.lookup headerJobRunAt = some (formatRFC3339Nano j.runAt)
  attempt : headers.lookup headerJobAttempt = some (itoa j.attempt)
  maxAttempts : headers.lookup headerJobMaxAttempts = some (itoa j.maxAttempts)
  tenantID : headers.lookup headerJobTenantID = unlessBlank j.tenantID ∧
    headers.lookup "tenant_id" = unlessBlank j.tenantID
  correlationID : headers.lookup headerJobCorrelationID = unlessBlank j.correlationID ∧
    headers.lookup "correlation_id" = unlessBlank j.correlationID
  idempotencyKey : headers.lookup headerJobIdempotencyKey = unlessBlank j.idempotencyKey

section Headers

variable {headers : Headers} {j : Job} {createdAt : Time} {key compat value k : String}

theorem lookup_insert_ite (headers : Headers) (k k' v : String) :
    (headers.insert k v).lookup k' = if k' = k then some v else headers.lookup k' := by
  split_ifs with hk
  · rw [hk,Finmap.lookup_insert]
  · rw [Finmap.lookup_insert_of_ne _ hk]

theorem lookup_withIdentity_of_ne (hk : k ≠ key) (hc : k ≠ compat) :
    (withIdentity key compat value headers).lookup k = headers.lookup k := by
  simp only [withIdentity]
  split_ifs
  · rfl
  · rw [lookup_insert_ite,if_neg hc,lookup_insert_ite,if_neg hk]
  · rw [lookup_insert_ite,if_neg hk]

theorem lookup_withIdentity (value : String) (hne : key ≠ compat) (hkey : headers.lookup key = none)
    (hcompat : headers.lookup compat = none) :
    (withIdentity key compat value headers).lookup key = unlessBlank value ∧
      (withIdentity key compat value headers).lookup compat = unlessBlank value := by
  by_cases hblank : trimSpace value = ""
  · simp only [withIdentity,unlessBlank,if_pos hblank]
    exact ⟨hkey,hcompat⟩
  · have hfree : header (headers.insert key (trimSpace value)) compat = "" := by
      rw [header_insert,if_neg hne.symm,header,hcompat]
      rfl
    simp only [withIdentity,unlessBlank,if_neg hblank,if_pos hfree,lookup_insert_ite,if_neg hne,
      if_true]
    exact ⟨trivial,trivial⟩

theorem lookup_routingHeaders_of_not_mem (hk : k ∉ routingKeys) :
    (j.routingHeaders createdAt).lookup k = j.headers.lookup k := by
  simp only [routingKeys,List.mem_cons,List.not_mem_nil,or_false,not_or] at hk
  obtain ⟨h1,h2,h3,h4,h5,h6⟩ := hk
  simp only [Job.routingHeaders,lookup_insert_ite,h1,h2,h3,h4,h5,h6,if_false]

theorem lookup_encodedHeaders_of_not_mem (hk : k ∉ identityKeys) :
    (j.encodedHeaders createdAt).lookup k = (j.routingHeaders createdAt).lookup k := by
  simp only [identityKeys,List.mem_cons,List.not_mem_nil,or_false,not_or] at hk
  obtain ⟨h1,h2,h3,h4,h5⟩ := hk
  simp only [Job.encodedHeaders]
  split_ifs
  · rw [lookup_withIdentity_of_ne h3 h4,lookup_withIdentity_of_ne h1 h2]
  · rw [lookup_insert_ite,if_neg h5,lookup_withIdentity_of_ne h3 h4,lookup_withIdentity_of_ne h1 h2]

theorem lookup_kept (hk : k ∉ reservedKeys) :
    (j.encodedHeaders createdAt).lookup k = j.headers.lookup k := by
  rw [reservedKeys,List.mem_append,not_or] at hk
  rw [lookup_encodedHeaders_of_not_mem hk.2,lookup_routingHeaders_of_not_mem hk.1]

-- the idempotency key is written last and is no other key
theorem lookup_before_idempotency (hk : k ≠ headerJobIdempotencyKey) :
    (j.encodedHeaders createdAt).lookup k =
      (withIdentity headerJobCorrelationID "correlation_id" j.correlationID
        (withIdentity headerJobTenantID "tenant_id" j.tenantID (j.routingHeaders createdAt))).lookup k := by
  simp only [Job.encodedHeaders]
  split_ifs
  · rfl
  · rw [lookup_insert_ite,if_neg hk]

variable (createdAt) in
theorem lookup_of_free (hfree : ∀ k ∈ reservedKeys, k ∉ j.headers) (hk : k ∈ identityKeys)
    (hroute : k ∉ routingKeys) : (j.routingHeaders createdAt).lookup k = none := by
  rw [lookup_routingHeaders_of_not_mem hroute,Finmap.lookup_eq_none]
  exact hfree k (List.mem_append_right _ hk)

theorem tenant_added (hfree : ∀ k ∈ reservedKeys, k ∉ j.headers) :
    (j.encodedHeaders createdAt).lookup headerJobTenantID = unlessBlank j.tenantID ∧
      (j.encodedHeaders createdAt).lookup "tenant_id" = unlessBlank j.tenantID := by
  obtain ⟨hkey,hcompat⟩ := lookup_withIdentity j.tenantID (by decide : headerJobTenantID ≠ "tenant_id")
    (lookup_of_free createdAt hfree (by decide) (by decide))
    (lookup_of_free createdAt hfree (by decide) (by decide))
  constructor
  · rw [lookup_before_idempotency (by decide),lookup_withIdentity_of_ne (by decide) (by decide),hkey]
  · rw [lookup_before_idempotency (by decide),lookup_withIdentity_of_ne (by decide) (by decide),hcompat]

theorem correlation_added (hfree : ∀ k ∈ reservedKeys, k ∉ j.headers) :
    (j.encodedHeaders createdAt).lookup headerJobCorrelationID = unlessBlank j.correlationID ∧
      (j.encodedHeaders createdAt).lookup "correlation_id" = unlessBlank j.correlationID := by
  rw [lookup_before_idempotency (by decide),lookup_before_idempotency (by decide)]
  refine lookup_withIdentity _ (by decide) ?_ ?_
  · rw [lookup_withIdentity_of_ne (by decide) (by decide)]
    exact lookup_of_free createdAt hfree (by decide) (by decide)
  · rw [lookup_withIdentity_of_ne (by decide) (by decide)]
    exact lookup_of_free createdAt hfree (by decide) (by decide)

theorem idempotency_added (hfree : ∀ k ∈ reservedKeys, k ∉ j.headers) :
    (j.encodedHeaders createdAt).lookup headerJobIdempotencyKey = unlessBlank j.idempotencyKey := by
  simp only [Job.encodedHeaders,unlessBlank]
  split_ifs
  · rw [lookup_withIdentity_of_ne (by decide) (by decide),
      lookup_withIdentity_of_ne (by decide) (by decide)]
    exact lookup_of_free createdAt hfree (by decide) (by decide)
  · rw [lookup_insert_ite,if_pos rfl]

theorem reservedAdded (hfree : ∀ k ∈ reservedKeys, k ∉ j.headers) (hrun : isZero j.runAt = false) :
    ReservedAdded j (j.encodedHeaders createdAt) := by
  have hrunAt : j.encodedRunAt createdAt = j.runAt := by
    rw [Job.encodedRunAt,if_neg (by simp [hrun])]
  refine ⟨fun k => lookup_kept,?_,?_,?_,?_,?_,?_,tenant_added hfree,correlation_added hfree,
    idempotency_added hfree⟩
  all_goals
    rw [lookup_encodedHeaders_of_not_mem (by decide)]
    simp [Job.routingHeaders,headerJobID,headerJobName,headerJobQueue,
      headerJobRunAt,headerJobAttempt,headerJobMaxAttempts,hrunAt]

theorem owns_of_free (hfree : ∀ k ∈ reservedKeys, k ∉ j.headers) (hkey : key ∈ reservedKeys)
    (hcompat : compat ∈ reservedKeys) (value : String) : Owns j.headers key compat value := by
  have hblank : ∀ k ∈ reservedKeys, trimSpace (header j.headers k) = "" := by
    intro k hk
    rw [header,Finmap.lookup_eq_none.mpr (hfree k hk)]
    simp [trimSpace_eq_empty_iff]
  exact .inr ⟨hblank key hkey,hblank compat hcompat⟩

end Headers

section Decoding

variable {j : Job}

def contentTypeOf (raw : String) : String :=
  if trimSpace raw = "" then defaultContentType else trimSpace raw

theorem contentTypeOf_idem (raw : String) : contentTypeOf (contentTypeOf raw) = contentTypeOf raw := by
  have hdefault : trimSpace defaultContentType = defaultContentType := trimSpace_of_all (by decide)
  by_cases hblank : trimSpace raw = ""
  · have hraw : contentTypeOf raw = defaultContentType := if_pos hblank
    rw [hraw,contentTypeOf,hdefault,if_neg (by decide)]
  · have hraw : contentTypeOf raw = trimSpace raw := if_neg hblank
    rw [hraw,contentTypeOf,trimSpace_trimSpace,if_neg hblank]

theorem trimSpace_jobPartitionKey (tenantID : String) {name id : String} (hname : trimSpace name ≠ "")
    (hid : trimSpace id ≠ "") :
    trimSpace (jobPartitionKey tenantID name id) = jobPartitionKey tenantID name id := by
  simp only [jobPartitionKey,hname,hid,ne_eq,not_false_eq_true,and_true,if_true]
  split_ifs with htenant
  · exact trimSpace_joined ":" (trimSpace_trimSpace name) hname (trimSpace_trimSpace id) hid
  · exact trimSpace_joined ":" (trimSpace_trimSpace tenantID) htenant (trimSpace_trimSpace name) hname

-- what a job has to say about itself for the decoder to read it back
structure Readable (j : Job) : Prop where
  valid : j.Valid
  created : isZero j.createdAt = false
  scheduled : isZero j.runAt = false
  writable : inYearRange j.runAt = true
  tenant : Owns j.headers headerJobTenantID "tenant_id" j.tenantID
  correlation : Owns j.headers headerJobCorrelationID "correlation_id" j.correlationID
  idempotency : Owns j.headers headerJobIdempotencyKey headerJobIdempotencyKey j.idempotencyKey

theorem decode_toEventBusMessage (h : Readable j) (now now' : Time) :
    ∃ msg, j.toEventBusMessage now = .ok msg ∧
      jobFromEventBusMessage now' msg = .ok (j.normalized (j.encodedHeaders j.createdAt)) := by
  have hvalid := (Job.validate_ok_iff j).mpr h.valid
  have hrunAt : j.encodedRunAt j.createdAt = j.runAt := by
    rw [Job.encodedRunAt,if_neg (by simp [h.scheduled])]
  obtain ⟨msg,hmsg⟩ : ∃ msg, j.toEventBusMessage now = .ok msg := by
    simp only [Job.toEventBusMessage,hvalid]
    exact ⟨_,rfl⟩
  refine ⟨msg,hmsg,?_⟩
  simp only [Job.toEventBusMessage,hvalid,h.created,Bool.false_eq_true,if_false,Except.ok.injEq] at hmsg
  have hdecode : jobFromEventBusMessageWithQueue now' msg "" =
      .ok (decodedJob now' msg "" (j.encodedRunAt j.createdAt) j.attempt j.maxAttempts) :=
    decode_encoded h.valid (by rw [← hmsg]) (by rw [← hmsg])
      (by rw [← hmsg,trimSpace_trimSpace]; exact h.valid.id) (by rw [hrunAt]; exact h.writable)
  rw [jobFromEventBusMessage,hdecode,hrunAt,Except.ok.injEq]
  subst hmsg
  simp only [decodedJob,Job.normalized,Job.mk.injEq,header_encoded_name,header_encoded_queue,
    trimSpace_trimSpace,h.valid.queue,h.created,decodedRunAt,h.scheduled,Bool.false_eq_true,if_false,
    and_false,true_and,and_true]
  refine ⟨contentTypeOf_idem j.contentType,tenant_kept_iff.mpr h.tenant,
    correlation_kept_iff.mpr h.correlation,idempotency_kept_iff.mpr h.idempotency,?_⟩
  split_ifs with hblank
  · exact trimSpace_jobPartitionKey j.tenantID h.valid.name h.valid.id
  · exact trimSpace_trimSpace _

theorem decoded_of_ok {now : Time} {m : Message} (h : jobFromEventBusMessage now m = .ok j) :
    j.Valid ∧ ∃ runAt attempt maxAttempts, j = decodedJob now m "" runAt attempt maxAttempts := by
  simp only [jobFromEventBusMessage,jobFromEventBusMessageWithQueue] at h
  split_ifs at h with hid hlen
  cases hrun : headerTime m.headers headerJobRunAt with
  | error e => simp [hrun] at h
  | ok runAt =>
    cases hattempt : headerInt m.headers headerJobAttempt with
    | error e => simp [hrun,hattempt] at h
    | ok attempt =>
      cases hmax : headerInt m.headers headerJobMaxAttempts with
      | error e => simp [hrun,hattempt,hmax] at h
      | ok maxAttempts =>
        simp only [hrun,hattempt,hmax] at h
        cases hvalid : (decodedJob now m "" runAt attempt maxAttempts).validate with
        | error e => simp [hvalid] at h
        | ok u =>
          simp only [hvalid,Except.ok.injEq] at h
          exact ⟨h ▸ (Job.validate_ok_iff _).mp hvalid,runAt,attempt,maxAttempts,h.symm⟩

theorem decodedRunAt_set {now : Time} (hnow : isZero now = false) (createdAt runAt : Time) :
    isZero (decodedRunAt now createdAt runAt) = false := by
  simp only [decodedRunAt]
  cases hcreated : isZero createdAt <;> cases hrun : isZero runAt <;> simp [hcreated,hrun,hnow]

theorem owns_decoded (headers : Headers) (key compat : String) :
    Owns headers key compat (trimSpace (firstNonEmpty (header headers key) (header headers compat))) := by
  by_cases hblank : trimSpace (firstNonEmpty (header headers key) (header headers compat)) = ""
  · exact .inr ((trimSpace_firstNonEmpty_eq_empty _ _).mp hblank)
  · exact .inl (by rwa [trimSpace_trimSpace])

theorem readable_decoded {now : Time} {m : Message} (hnow : isZero now = false)
    (h : jobFromEventBusMessage now m = .ok j) (hrange : inYearRange j.runAt = true) : Readable j := by
  obtain ⟨hvalid,runAt,attempt,maxAttempts,rfl⟩ := decoded_of_ok h
  refine ⟨hvalid,?_,decodedRunAt_set hnow m.timestamp runAt,hrange,owns_decoded _ _ _,
    owns_decoded _ _ _,?_⟩
  · simp only [decodedJob]
    split_ifs with hzero
    · exact hnow
    · simpa using hzero
  · by_cases hblank : trimSpace (header m.headers headerJobIdempotencyKey) = ""
    · exact .inr ⟨hblank,hblank⟩
    · exact .inl (by simpa [decodedJob] using hblank)

-- a decoded job is trimmed, and its content type is set
theorem normalized_decoded {now : Time} {m : Message} (h : jobFromEventBusMessage now m = .ok j)
    (headers : Headers) : j.normalized headers = { j with
      headers := headers
      partitionKey := if j.partitionKey = "" then jobPartitionKey j.tenantID j.name j.id
        else j.partitionKey } := by
  obtain ⟨hvalid,runAt,attempt,maxAttempts,rfl⟩ := decoded_of_ok h
  have hqueue : trimSpace (decodedJob now m "" runAt attempt maxAttempts).queue =
      (decodedJob now m "" runAt attempt maxAttempts).queue := by
    simp only [decodedJob]
    split_ifs <;> exact trimSpace_trimSpace _
  have htype := contentTypeOf_idem m.contentType
  simp only [Job.normalized,Job.mk.injEq,hqueue,true_and,and_true]
  simp only [decodedJob,trimSpace_trimSpace,true_and]
  exact ⟨htype,rfl⟩

theorem inYearRange_of_inYears {t : Int} (h : InYears t) : inYearRange t = true := by
  have hzero : zeroTime = -62135596800000000000 := rfl
  have hlast : yearTenThousand = 253402300800000000000 := rfl
  obtain ⟨hlo,hhi⟩ := h
  rw [hzero] at hlo
  rw [hlast] at hhi
  exact (inYearRange_iff t).mpr ⟨Int.le_trans (by decide) hlo,hhi⟩

end Decoding

theorem codec_round_trip :
    (∀ (now now' : Time) (j : Job), j.validate = .ok () → InYears j.runAt → InYears j.createdAt →
      isZero j.runAt = false → isZero j.createdAt = false → (∀ k ∈ reservedKeys, k ∉ j.headers) →
      ∃ msg headers, j.toEventBusMessage now = .ok msg ∧
        jobFromEventBusMessage now' msg = .ok (j.normalized headers) ∧ ReservedAdded j headers) ∧
    ∀ (now now' now'' : Time) (m : Message) (j : Job), isZero now = false →
      jobFromEventBusMessage now m = .ok j → InYears j.runAt →
      ∃ msg headers, j.toEventBusMessage now' = .ok msg ∧
        jobFromEventBusMessage now'' msg = .ok { j with
          headers := headers
          partitionKey := if j.partitionKey = "" then jobPartitionKey j.tenantID j.name j.id
            else j.partitionKey } ∧
        ∀ k ∉ reservedKeys, headers.lookup k = j.headers.lookup k := by
  constructor
  · intro now now' j hvalid hyears _ hrun hcreated hfree
    have hreadable : Readable j := ⟨(Job.validate_ok_iff j).mp hvalid,hcreated,hrun,
      inYearRange_of_inYears hyears,owns_of_free hfree (by decide) (by decide) _,
      owns_of_free hfree (by decide) (by decide) _,owns_of_free hfree (by decide) (by decide) _⟩
    obtain ⟨msg,hmsg,hdecode⟩ := decode_toEventBusMessage hreadable now now'
    exact ⟨msg,_,hmsg,hdecode,reservedAdded hfree hrun⟩
  · intro now now' now'' m j hnow hdecoded hyears
    obtain ⟨msg,hmsg,hdecode⟩ := decode_toEventBusMessage
      (readable_decoded hnow hdecoded (inYearRange_of_inYears hyears)) now' now''
    rw [normalized_decoded hdecoded] at hdecode
    exact ⟨msg,_,hmsg,hdecode,fun k => lookup_kept⟩

theorem daily_close_round_trip :
    ∃ msg headers, dailyClose.toEventBusMessage second = .ok msg ∧
      jobFromEventBusMessage second msg = .ok (dailyClose.normalized headers) ∧
      ∃ msg' j, (dailyClose.normalized headers).toEventBusMessage second = .ok msg' ∧
        jobFromEventBusMessage second msg' = .ok j ∧ j.id = "job-1" ∧ j.runAt = dailyClose.runAt := by
  have hyears : InYears dailyClose.runAt := ⟨by decide,by decide⟩
  obtain ⟨msg,headers,hmsg,hdecode,_⟩ := codec_round_trip.1 second second dailyClose (by decide +kernel)
    hyears ⟨by decide,by decide⟩ (by decide) (by decide) (fun k _ => Finmap.notMem_empty)
  obtain ⟨msg',headers',hmsg',hagain,_⟩ := codec_round_trip.2 second second second msg _ (by decide)
    hdecode hyears
  exact ⟨msg,headers,hmsg,hdecode,msg',_,hmsg',hagain,trimSpace_of_all (by decide),rfl⟩

end Nimburion.Jobs
