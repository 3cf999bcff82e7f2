import Nimburion.Jobs.Contract

namespace Nimburion.Jobs
open GoText GoTime Decimal EventBus

structure SameJob (j d : Job) : Prop where
  id : trimSpace d.id = trimSpace j.id
  name : trimSpace d.name = trimSpace j.name
  queue : trimSpace d.queue = trimSpace j.queue
  payload : d.payload = j.payload
  tenantID : trimSpace d.tenantID = trimSpace j.tenantID
  correlationID : trimSpace d.correlationID = trimSpace j.correlationID
  idempotencyKey : trimSpace d.idempotencyKey = trimSpace j.idempotencyKey
  attempt : d.attempt = j.attempt
  maxAttempts : d.maxAttempts = j.maxAttempts
  runAt : d.runAt = j.runAt

def Survives (t : Transport) (b : Broker) (now now' : Time) (fallbackQueue : String) (j : Job) :
    Prop :=
  ∃ msg d, j.toEventBusMessage now = .ok msg ∧
    jobFromEventBusMessageWithQueue now' (t.carry b msg) fallbackQueue = .ok d ∧ SameJob j d

-- the value is the job's own, or the job has none and neither have its headers
def Owns (headers : Headers) (key compat value : String) : Prop :=
  trimSpace value ≠ "" ∨ (trimSpace (header headers key) = "" ∧ trimSpace (header headers compat) = "")

structure Carried (t : Transport) (b : Broker) (j : Job) : Prop where
  identity : t = .rabbitmq ∨ t = .sqs ∧ trimSpace b.messageID = trimSpace j.id
  scheduled : isZero j.runAt = false
  writable : inYearRange j.runAt = true
  tenant : Owns j.headers headerJobTenantID "tenant_id" j.tenantID
  correlation : Owns j.headers headerJobCorrelationID "correlation_id" j.correlationID
  idempotency : Owns j.headers headerJobIdempotencyKey headerJobIdempotencyKey j.idempotencyKey

section Headers

variable {headers : Headers} {key compat value k : String}

theorem header_insert (headers : Headers) (k k' v : String) :
    header (headers.insert k v) k' = if k' = k then v else header headers k' := by
  unfold header
  split_ifs with hk
  · rw [hk,Finmap.lookup_insert]
    rfl
  · rw [Finmap.lookup_insert_of_ne _ hk]

theorem header_withIdentity_of_ne (hk : k ≠ key) (hc : k ≠ compat) :
    header (withIdentity key compat value headers) k = header headers k := by
  simp only [withIdentity]
  split_ifs
  · rfl
  · rw [header_insert,if_neg hc,header_insert,if_neg hk]
  · rw [header_insert,if_neg hk]

theorem header_withIdentity (headers : Headers) (hne : key ≠ compat) (hv : trimSpace value ≠ "") :
    header (withIdentity key compat value headers) key = trimSpace value := by
  simp only [withIdentity,if_neg hv]
  split_ifs
  · rw [header_insert,if_neg hne,header_insert,if_pos rfl]
  · rw [header_insert,if_pos rfl]

theorem trimSpace_firstNonEmpty_eq_empty (a b : String) :
    trimSpace (firstNonEmpty a b) = "" ↔ trimSpace a = "" ∧ trimSpace b = "" := by
  unfold firstNonEmpty
  split_ifs with ha hb
  · simp [ha]
  · simp [hb]
  · simp_all [trimSpace_eq_empty_iff]

theorem identity_kept_iff (hne : key ≠ compat) :
    trimSpace (firstNonEmpty (header (withIdentity key compat value headers) key)
      (header (withIdentity key compat value headers) compat)) = trimSpace value ↔
    Owns headers key compat value := by
  by_cases hv : trimSpace value = ""
  · have hsame : withIdentity key compat value headers = headers := by
      rw [withIdentity,if_pos hv]
    rw [hsame,hv,trimSpace_firstNonEmpty_eq_empty,Owns]
    simp [hv]
  · have hkey := header_withIdentity headers hne hv
    rw [hkey,firstNonEmpty,trimSpace_trimSpace,if_pos hv,trimSpace_trimSpace]
    simp [Owns,hv]

end Headers

section Encoding

variable {j : Job} {createdAt : Time} {k : String}

def routingKeys : List String :=
  [headerJobID,headerJobName,headerJobQueue,headerJobRunAt,headerJobAttempt,headerJobMaxAttempts]

def identityKeys : List String :=
  [headerJobTenantID,"tenant_id",headerJobCorrelationID,"correlation_id",headerJobIdempotencyKey]

theorem header_routingHeaders_of_not_mem (hk : k ∉ routingKeys) :
    header (j.routingHeaders createdAt) k = header j.headers k := by
  simp only [routingKeys,List.mem_cons,List.not_mem_nil,or_false,not_or] at hk
  obtain ⟨h1,h2,h3,h4,h5,h6⟩ := hk
  simp only [Job.routingHeaders,header_insert,h1,h2,h3,h4,h5,h6,if_false]

theorem header_encodedHeaders_of_not_mem (hk : k ∉ identityKeys) :
    header (j.encodedHeaders createdAt) k = header (j.routingHeaders createdAt) k := by
  simp only [identityKeys,List.mem_cons,List.not_mem_nil,or_false,not_or] at hk
  obtain ⟨h1,h2,h3,h4,h5⟩ := hk
  simp only [Job.encodedHeaders]
  split_ifs
  · rw [header_withIdentity_of_ne h3 h4,header_withIdentity_of_ne h1 h2]
  · rw [header_insert,if_neg h5,header_withIdentity_of_ne h3 h4,header_withIdentity_of_ne h1 h2]

theorem header_encoded_name :
    header (j.encodedHeaders createdAt) headerJobName = trimSpace j.name := by
  rw [header_encodedHeaders_of_not_mem (by decide)]
  simp [Job.routingHeaders,header_insert,headerJobName,headerJobQueue,headerJobRunAt,
    headerJobAttempt,headerJobMaxAttempts]

theorem header_encoded_queue :
    header (j.encodedHeaders createdAt) headerJobQueue = trimSpace j.queue := by
  rw [header_encodedHeaders_of_not_mem (by decide)]
  simp [Job.routingHeaders,header_insert,headerJobQueue,headerJobRunAt,headerJobAttempt,
    headerJobMaxAttempts]

theorem header_encoded_runAt : header (j.encodedHeaders createdAt) headerJobRunAt =
    formatRFC3339Nano (j.encodedRunAt createdAt) := by
  rw [header_encodedHeaders_of_not_mem (by decide)]
  simp [Job.routingHeaders,header_insert,headerJobRunAt,headerJobAttempt,headerJobMaxAttempts]

theorem header_encoded_attempt :
    header (j.encodedHeaders createdAt) headerJobAttempt = itoa j.attempt := by
  rw [header_encodedHeaders_of_not_mem (by decide)]
  simp [Job.routingHeaders,header_insert,headerJobAttempt,headerJobMaxAttempts]

theorem header_encoded_maxAttempts :
    header (j.encodedHeaders createdAt) headerJobMaxAttempts = itoa j.maxAttempts := by
  rw [header_encodedHeaders_of_not_mem (by decide)]
  simp [Job.routingHeaders,header_insert]

theorem tenant_kept_iff :
    trimSpace (firstNonEmpty (header (j.encodedHeaders createdAt) headerJobTenantID)
      (header (j.encodedHeaders createdAt) "tenant_id")) = trimSpace j.tenantID ↔
    Owns j.headers headerJobTenantID "tenant_id" j.tenantID := by
  have hlast : ∀ k, k = headerJobTenantID ∨ k = "tenant_id" →
      header (j.encodedHeaders createdAt) k =
        header (withIdentity headerJobTenantID "tenant_id" j.tenantID (j.routingHeaders createdAt))
          k := by
    rintro k (rfl | rfl) <;> simp only [Job.encodedHeaders] <;> split_ifs
    · rw [header_withIdentity_of_ne (by decide) (by decide)]
    · rw [header_insert,if_neg (by decide),header_withIdentity_of_ne (by decide) (by decide)]
    · rw [header_withIdentity_of_ne (by decide) (by decide)]
    · rw [header_insert,if_neg (by decide),header_withIdentity_of_ne (by decide) (by decide)]
  rw [hlast _ (.inl rfl),hlast _ (.inr rfl),identity_kept_iff (by decide),Owns,Owns,
    header_routingHeaders_of_not_mem (by decide),header_routingHeaders_of_not_mem (by decide)]

theorem correlation_kept_iff :
    trimSpace (firstNonEmpty (header (j.encodedHeaders createdAt) headerJobCorrelationID)
      (header (j.encodedHeaders createdAt) "correlation_id")) = trimSpace j.correlationID ↔
    Owns j.headers headerJobCorrelationID "correlation_id" j.correlationID := by
  have hlast : ∀ k, k = headerJobCorrelationID ∨ k = "correlation_id" →
      header (j.encodedHeaders createdAt) k =
        header (withIdentity headerJobCorrelationID "correlation_id" j.correlationID
          (withIdentity headerJobTenantID "tenant_id" j.tenantID (j.routingHeaders createdAt)))
          k := by
    rintro k (rfl | rfl) <;> simp only [Job.encodedHeaders] <;> split_ifs
    · rfl
    · rw [header_insert,if_neg (by decide)]
    · rfl
    · rw [header_insert,if_neg (by decide)]
  rw [hlast _ (.inl rfl),hlast _ (.inr rfl),identity_kept_iff (by decide),Owns,Owns,
    header_withIdentity_of_ne (by decide) (by decide),
    header_withIdentity_of_ne (by decide) (by decide),
    header_routingHeaders_of_not_mem (by decide),header_routingHeaders_of_not_mem (by decide)]

theorem idempotency_kept_iff :
    trimSpace (header (j.encodedHeaders createdAt) headerJobIdempotencyKey) =
      trimSpace j.idempotencyKey ↔
    Owns j.headers headerJobIdempotencyKey headerJobIdempotencyKey j.idempotencyKey := by
  by_cases hv : trimSpace j.idempotencyKey = ""
  · have hsame : header (j.encodedHeaders createdAt) headerJobIdempotencyKey =
        header j.headers headerJobIdempotencyKey := by
      simp only [Job.encodedHeaders,if_pos hv]
      rw [header_withIdentity_of_ne (by decide) (by decide),
        header_withIdentity_of_ne (by decide) (by decide),
        header_routingHeaders_of_not_mem (by decide)]
    rw [hsame,hv,Owns]
    simp [hv]
  · have hown : header (j.encodedHeaders createdAt) headerJobIdempotencyKey =
        trimSpace j.idempotencyKey := by
      simp only [Job.encodedHeaders,if_neg hv]
      rw [header_insert,if_pos rfl]
    rw [hown,trimSpace_trimSpace]
    simp [Owns,hv]

theorem headerInt_encoded_attempt (h : 0 ≤ j.attempt) :
    headerInt (j.encodedHeaders createdAt) headerJobAttempt = .ok j.attempt := by
  simp only [headerInt,header_encoded_attempt,trimSpace_itoa h,itoa_ne_empty h,if_false,
    atoi_itoa h]

theorem headerInt_encoded_maxAttempts (h : 0 ≤ j.maxAttempts) :
    headerInt (j.encodedHeaders createdAt) headerJobMaxAttempts = .ok j.maxAttempts := by
  simp only [headerInt,header_encoded_maxAttempts,trimSpace_itoa h,itoa_ne_empty h,if_false,
    atoi_itoa h]

theorem headerTime_encoded (h : inYearRange (j.encodedRunAt createdAt) = true) :
    headerTime (j.encodedHeaders createdAt) headerJobRunAt = .ok (j.encodedRunAt createdAt) := by
  simp only [headerTime,header_encoded_runAt,trimSpace_formatRFC3339Nano,
    formatRFC3339Nano_ne_empty,if_false,parse_formatRFC3339Nano _ h]

theorem headerTime_encoded_error (h : inYearRange (j.encodedRunAt createdAt) = false) :
    ∃ e, headerTime (j.encodedHeaders createdAt) headerJobRunAt = .error e := by
  simp only [headerTime,header_encoded_runAt,trimSpace_formatRFC3339Nano,
    formatRFC3339Nano_ne_empty,if_false,parse_format_none _ h]
  exact ⟨_,rfl⟩

end Encoding

section Decoding

variable {j : Job} {createdAt now : Time} {m : Message} {fallbackQueue : String}

theorem decodedJob_valid (now : Time) (fallbackQueue : String) (hj : j.Valid) (hheaders : m.headers = j.encodedHeaders createdAt)
    (hvalue : m.value = j.payload) (hid : trimSpace m.id ≠ "") (runAt : Time) :
    (decodedJob now m fallbackQueue runAt j.attempt j.maxAttempts).Valid where
  id := by simpa [decodedJob] using hid
  name := by simpa [decodedJob,hheaders,header_encoded_name] using hj.name
  queue := by simp [decodedJob,hheaders,header_encoded_queue,hj.queue]
  payload := by simpa [decodedJob,hvalue] using hj.payload
  attempt := hj.attempt
  maxAttempts := hj.maxAttempts
  within := hj.within

theorem decode_encoded (hj : j.Valid) (hheaders : m.headers = j.encodedHeaders createdAt)
    (hvalue : m.value = j.payload) (hid : trimSpace m.id ≠ "")
    (hrange : inYearRange (j.encodedRunAt createdAt) = true) :
    jobFromEventBusMessageWithQueue now m fallbackQueue = .ok (decodedJob now m fallbackQueue
      (j.encodedRunAt createdAt) j.attempt j.maxAttempts) := by
  have hlen : ¬ m.value.length = 0 := by simpa [hvalue] using hj.payload
  have hvalid := (Job.validate_ok_iff _).mpr
    (decodedJob_valid now fallbackQueue hj hheaders hvalue hid (j.encodedRunAt createdAt))
  simp only [jobFromEventBusMessageWithQueue,if_neg hid,if_neg hlen,hheaders,
    headerTime_encoded hrange,headerInt_encoded_attempt hj.attempt,
    headerInt_encoded_maxAttempts hj.maxAttempts,hvalid]

theorem decode_encoded_inv {d : Job} (hheaders : m.headers = j.encodedHeaders createdAt)
    (h : jobFromEventBusMessageWithQueue now m fallbackQueue = .ok d) :
    trimSpace m.id ≠ "" ∧ inYearRange (j.encodedRunAt createdAt) = true := by
  unfold jobFromEventBusMessageWithQueue at h
  split_ifs at h with hid hlen
  refine ⟨hid,?_⟩
  by_contra hrange
  obtain ⟨e,he⟩ := headerTime_encoded_error (by simpa using hrange)
  rw [hheaders,he] at h
  cases h

theorem sameJob_decoded_iff (hj : j.Valid) (hheaders : m.headers = j.encodedHeaders createdAt)
    (hvalue : m.value = j.payload) (hcreated : isZero createdAt = false) :
    SameJob j (decodedJob now m fallbackQueue (j.encodedRunAt createdAt) j.attempt
      j.maxAttempts) ↔
    trimSpace m.id = trimSpace j.id ∧ isZero j.runAt = false ∧
      Owns j.headers headerJobTenantID "tenant_id" j.tenantID ∧
      Owns j.headers headerJobCorrelationID "correlation_id" j.correlationID ∧
      Owns j.headers headerJobIdempotencyKey headerJobIdempotencyKey j.idempotencyKey := by
  have hset : isZero (j.encodedRunAt createdAt) = false := by
    unfold Job.encodedRunAt
    split_ifs with hz
    · exact hcreated
    · simpa using hz
  have hrun : decodedRunAt now m.timestamp (j.encodedRunAt createdAt) =
      j.encodedRunAt createdAt := by simp [decodedRunAt,hset]
  have hsched : j.encodedRunAt createdAt = j.runAt ↔ isZero j.runAt = false := by
    unfold Job.encodedRunAt
    split_ifs with hz
    · constructor
      · intro heq
        rw [← heq]
        exact hcreated
      · intro hnot
        rw [hz] at hnot
        cases hnot
    · simpa using hz
  constructor
  · intro h
    refine ⟨by simpa [decodedJob] using h.id,?_,?_,?_,?_⟩
    · exact hsched.mp (hrun ▸ h.runAt)
    · have htenant := h.tenantID
      simp only [decodedJob,hheaders,trimSpace_trimSpace] at htenant
      exact tenant_kept_iff.mp htenant
    · have hcorr := h.correlationID
      simp only [decodedJob,hheaders,trimSpace_trimSpace] at hcorr
      exact correlation_kept_iff.mp hcorr
    · have hidem := h.idempotencyKey
      simp only [decodedJob,hheaders,trimSpace_trimSpace] at hidem
      exact idempotency_kept_iff.mp hidem
  · rintro ⟨hid,hz,htenant,hcorr,hidem⟩
    constructor
    · simpa [decodedJob] using hid
    · simp [decodedJob,hheaders,header_encoded_name]
    · simp [decodedJob,hheaders,header_encoded_queue,hj.queue]
    · exact hvalue
    · simpa [decodedJob,hheaders] using tenant_kept_iff.mpr htenant
    · simpa [decodedJob,hheaders] using correlation_kept_iff.mpr hcorr
    · simpa [decodedJob,hheaders] using idempotency_kept_iff.mpr hidem
    · rfl
    · rfl
    · exact hrun.trans (hsched.mpr hz)

end Decoding

section Transport

variable {t : Transport} {b : Broker} {j : Job} {now now' : Time} {fallbackQueue : String}

theorem carry_id (msg : Message) (hmsg : msg.id = trimSpace j.id) (hj : j.Valid) :
    trimSpace (t.carry b msg).id ≠ "" ∧ trimSpace (t.carry b msg).id = trimSpace j.id ↔
    t = .rabbitmq ∨ t = .sqs ∧ trimSpace b.messageID = trimSpace j.id := by
  cases t with
  | kafka => simp [Transport.carry,Kafka.consume,trimSpace_eq_empty_iff]
  | rabbitmq => simp [Transport.carry,RabbitMQ.consume,RabbitMQ.publish,hmsg,hj.id]
  | sqs =>
    simp only [Transport.carry,SQS.consume,SQS.deliver,reduceCtorEq,false_or,true_and]
    constructor
    · exact fun h => h.2
    · exact fun h => ⟨h ▸ hj.id,h⟩

theorem job_survives_iff (hvalid : j.validate = .ok ()) (hnow : isZero now = false) :
    Survives t b now now' fallbackQueue j ↔ Carried t b j := by
  have hj := (Job.validate_ok_iff j).mp hvalid
  obtain ⟨createdAt,hcreatedAt⟩ : ∃ createdAt, createdAt =
      if isZero j.createdAt then now else j.createdAt := ⟨_,rfl⟩
  have hcreated : isZero createdAt = false := by
    rw [hcreatedAt]
    split_ifs with hz
    · exact hnow
    · simpa using hz
  obtain ⟨msg,hmsg,hid,hheaders,hvalue⟩ : ∃ msg, j.toEventBusMessage now = .ok msg ∧
      msg.id = trimSpace j.id ∧ msg.headers = j.encodedHeaders createdAt ∧
      msg.value = j.payload := by
    simp only [Job.toEventBusMessage,hvalid,← hcreatedAt]
    exact ⟨_,rfl,rfl,rfl,rfl⟩
  have hheaders' : (t.carry b msg).headers = j.encodedHeaders createdAt := by
    rw [carry_headers,hheaders]
  have hvalue' : (t.carry b msg).value = j.payload := by rw [carry_value,hvalue]
  have hscheduled : isZero j.runAt = false → j.encodedRunAt createdAt = j.runAt := by
    intro hz
    rw [Job.encodedRunAt,if_neg (by simp [hz])]
  constructor
  · rintro ⟨msg',d,hmsg',hdecode,hsame⟩
    rw [hmsg] at hmsg'
    cases hmsg'
    obtain ⟨hne,hrange⟩ := decode_encoded_inv hheaders' hdecode
    rw [decode_encoded hj hheaders' hvalue' hne hrange] at hdecode
    cases hdecode
    obtain ⟨hsameID,hz,htenant,hcorr,hidem⟩ :=
      (sameJob_decoded_iff hj hheaders' hvalue' hcreated).mp hsame
    exact ⟨(carry_id msg hid hj).mp ⟨hne,hsameID⟩,hz,hscheduled hz ▸ hrange,htenant,hcorr,hidem⟩
  · intro h
    obtain ⟨hne,hsameID⟩ := (carry_id msg hid hj).mpr h.identity
    have hrange : inYearRange (j.encodedRunAt createdAt) = true := by
      rw [hscheduled h.scheduled]
      exact h.writable
    exact ⟨msg,_,hmsg,decode_encoded hj hheaders' hvalue' hne hrange,
      (sameJob_decoded_iff hj hheaders' hvalue' hcreated).mpr
        ⟨hsameID,h.scheduled,h.tenant,h.correlation,h.idempotency⟩⟩

end Transport

def dailyClose : Job :=
  ⟨"job-1","billing.daily-close","maintenance",[123,125],∅,"application/json","tenant-a","corr-1",
    "billing.daily-close:2026-02-26","",1772071200*second,1,5,1772071140*second⟩

theorem job_survives_iff_over_rabbitmq : dailyClose.validate = .ok () ∧
    Survives .rabbitmq ⟨"maintenance",""⟩ second second "maintenance" dailyClose := by
  have hvalid : dailyClose.validate = .ok () := by decide +kernel
  refine ⟨hvalid,(job_survives_iff hvalid (by decide)).mpr ?_⟩
  constructor
  · exact .inl rfl
  · decide
  · decide
  · exact .inl (by decide +kernel)
  · exact .inl (by decide +kernel)
  · exact .inl (by decide +kernel)

theorem kafka_rejects_job : dailyClose.validate = .ok () ∧
    ¬ Survives .kafka ⟨"maintenance",""⟩ second second "maintenance" dailyClose := by
  refine ⟨by decide +kernel,?_⟩
  rintro ⟨msg,d,_,hdecode,_⟩
  have hrejected : jobFromEventBusMessageWithQueue second
      (Transport.kafka.carry ⟨"maintenance",""⟩ msg) "maintenance" =
      .error (.jobs .validation "message id is required") := by
    simp [jobFromEventBusMessageWithQueue,Transport.carry,Kafka.consume,trimSpace_eq_empty_iff]
  rw [hrejected] at hdecode
  cases hdecode

end Nimburion.Jobs
