import Nimburion.Auth.Jwt
import Nimburion.Lib.MapOrder
import Mathlib.Data.List.Infix

namespace Nimburion.Core.Errors
open GoText MapOrder
open Auth (Library)

inductive Kind where
  | validation
  | conflict
  | notFound
  | retryable
  | invalidArgument
  | notInitialized
  | closed
  deriving DecidableEq, Repr

def Kind.all : List Kind :=
  [.validation,.conflict,.notFound,.retryable,.invalidArgument,.notInitialized,.closed]

def Kind.text : Kind → String
  | .validation => "validation error"
  | .conflict => "conflict"
  | .notFound => "not found"
  | .retryable => "retryable error"
  | .invalidArgument => "invalid argument"
  | .notInitialized => "not initialized"
  | .closed => "closed"

inductive CoordinationKind where
  | validation
  | conflict
  | retryable
  | invalidArgument
  | notInitialized
  deriving DecidableEq, Repr

def CoordinationKind.all : List CoordinationKind :=
  [.validation,.conflict,.retryable,.invalidArgument,.notInitialized]

def CoordinationKind.kind : CoordinationKind → Kind
  | .validation => .validation
  | .conflict => .conflict
  | .retryable => .retryable
  | .invalidArgument => .invalidArgument
  | .notInitialized => .notInitialized

inductive Sentinel where
  | jobs (kind : Kind)
  | scheduler (kind : Kind)
  | coordination (kind : CoordinationKind)
  | cacheMiss
  | sessionNotFound
  | noSession
  | noRows
  deriving DecidableEq, Repr

def Sentinel.text : Sentinel → String
  | .jobs kind => "jobs " ++ kind.text
  | .scheduler kind => "scheduler " ++ kind.text
  | .coordination kind => "coordination " ++ kind.kind.text
  | .cacheMiss => "cache key not found"
  | .sessionNotFound => "session not found"
  | .noSession => "session middleware not configured or missing in request context"
  | .noRows => "sql: no rows in result set"

abbrev Fields := List (String × String)

structure AppError where
  code : String
  fallbackMessage : String
  params : Fields
  details : Fields
  httpStatus : ℕ
  deriving DecidableEq, Repr

structure OptimisticLockError where
  entityID : String
  expected : Int64
  actual : Int64
  deriving DecidableEq, Repr

def OptimisticLockError.error (e : OptimisticLockError) : String :=
  "optimistic lock failed for entity " ++ e.entityID ++ ": expected version " ++
    toString e.expected.toInt ++ ", got " ++ toString e.actual.toInt

inductive Layer where
  | transport
  | contract
  | domain
  | other (name : String)
  deriving DecidableEq, Repr

def Layer.text : Layer → String
  | .transport => "transport"
  | .contract => "contract"
  | .domain => "domain"
  | .other name => name

-- `wrapped` is one %w between two texts, `pair` two %w or errors.Join
inductive Err where
  | text (msg : String)
  | sentinel (s : Sentinel)
  | lock (e : OptimisticLockError)
  | wrapped (pre post : String) (err : Err)
  | pair (pre mid post : String) (a b : Err)
  | app (e : AppError)
  | appOver (e : AppError) (cause : Err)
  | invalid (layer : Layer) (message : String)
  | invalidOver (layer : Layer) (message : String) (cause : Err)
  deriving DecidableEq, Repr

def AppError.label (e : AppError) : String := if e.fallbackMessage ≠ "" then e.fallbackMessage else e.code

namespace Err

def error : Err → String
  | text msg => msg
  | sentinel s => s.text
  | lock e => e.error
  | wrapped pre post err => pre ++ err.error ++ post
  | pair pre mid post a b => pre ++ a.error ++ mid ++ b.error ++ post
  | app e => e.label
  | appOver e cause => e.label ++ ": " ++ cause.error
  | invalid layer message => if message ≠ "" then message else layer.text ++ " validation failed"
  | invalidOver _ message cause => if message ≠ "" then message else cause.error

-- what errors.Is and errors.As look at, in the order they walk the tree
inductive Node where
  | plain
  | sentinel (s : Sentinel)
  | lock (e : OptimisticLockError)
  | app (e : AppError)
  | invalid (layer : Layer) (message : String)

def nodes : Err → List Node
  | text _ => [.plain]
  | sentinel s => [.sentinel s]
  | lock e => [.lock e]
  | wrapped _ _ err => .plain :: err.nodes
  | pair _ _ _ a b => .plain :: (a.nodes ++ b.nodes)
  | app e => [.app e]
  | appOver e cause => .app e :: cause.nodes
  | invalid layer message => [.invalid layer message]
  | invalidOver layer message cause => .invalid layer message :: cause.nodes

def is (err : Err) (target : Sentinel) : Bool :=
  err.nodes.any fun
    | .sentinel s => s = target
    | _ => false

def asApp (err : Err) : Option AppError :=
  err.nodes.findSome? fun
    | .app e => some e
    | _ => none

def asLock (err : Err) : Option OptimisticLockError :=
  err.nodes.findSome? fun
    | .lock e => some e
    | _ => none

def asInvalid (err : Err) : Option (Layer × String) :=
  err.nodes.findSome? fun
    | .invalid layer message => some (layer,message)
    | _ => none

end Err

section Canonicalizers

inductive Package where
  | jobs
  | cache
  | relational
  | httpSession
  | scheduler
  | session
  | coordination
  deriving DecidableEq, Repr

-- in the order of the cases of each canonicalizer
def Package.sentinels : Package → List Sentinel
  | .jobs => Kind.all.map .jobs
  | .cache => [.cacheMiss]
  | .relational => [.noRows]
  | .httpSession => [.noSession]
  | .scheduler => Kind.all.map .scheduler
  | .session => [.sessionNotFound]
  | .coordination => CoordinationKind.all.map .coordination

def canonicalKind (family : String) (kind : Kind) (message : String) : AppError :=
  match kind with
  | .validation => ⟨"validation." ++ family,message,[],[],400⟩
  | .conflict => ⟨family ++ ".conflict",message,[],[],409⟩
  | .notFound => ⟨family ++ ".not_found",message,[],[],404⟩
  | .retryable => ⟨"operation.retryable",message,[],[("family",family)],503⟩
  | .invalidArgument => ⟨"argument." ++ family ++ ".invalid",message,[],[],400⟩
  | .notInitialized => ⟨"resource.not_initialized",message,[],[("family",family)],503⟩
  | .closed => ⟨"resource.closed",message,[],[("family",family)],409⟩

def canonicalSentinel (s : Sentinel) (message : String) : AppError :=
  match s with
  | .jobs kind => canonicalKind "jobs" kind message
  | .scheduler kind => canonicalKind "scheduler" kind message
  | .coordination kind => canonicalKind "coordination" kind.kind message
  | .cacheMiss => ⟨"cache.not_found",message,[],[],404⟩
  | .sessionNotFound => ⟨"session.not_found",message,[],[],404⟩
  | .noSession => ⟨"resource.not_initialized",message,[],[("family","http_session")],503⟩
  | .noRows => ⟨"resource.not_found",message,[],[],404⟩

def canonicalLock (e : OptimisticLockError) : AppError :=
  ⟨"resource.conflict",e.error,[],[("entity_id",e.entityID),("expected",toString e.expected.toInt),
    ("actual",toString e.actual.toInt)],409⟩

-- what a canonicalizer finds in an error
inductive Found where
  | sentinel (s : Sentinel)
  | lock (e : OptimisticLockError)
  deriving DecidableEq, Repr

def Found.canonical (message : String) : Found → AppError
  | .sentinel s => canonicalSentinel s message
  | .lock e => canonicalLock e

def Package.find (p : Package) (err : Err) : Option Found :=
  match p.sentinels.find? err.is with
  | some s => some (.sentinel s)
  | none => if p = .relational then err.asLock.map .lock else none

def Package.canonicalizer (p : Package) (err : Err) : Option AppError :=
  (p.find err).map (Found.canonical err.error)

-- the packages in the order their init functions have registered
def asAppError (registered : List Package) (err : Err) : Option AppError :=
  match err.asApp with
  | some e => some e
  | none => registered.findSome? fun p => p.canonicalizer err

end Canonicalizers

section HTTP

variable (lib : Library)

structure ErrorBody where
  error : String
  code : String
  message : String
  requestID : String
  details : Fields
  deriving DecidableEq, Repr

def contains (s sub : String) : Bool := sub.toList <:+: s.toList

def startsWith (s pre : String) : Bool := pre.toList.isPrefixOf s.toList

def inferStatusFromCode (code : String) : ℕ :=
  let lowerCode := lib.toLower (trimSpace code)
  if startsWith lowerCode "validation." then 400
  else if contains lowerCode "unauthorized" then 401
  else if contains lowerCode "forbidden" then 403
  else if contains lowerCode "not_found" then 404
  else if contains lowerCode "conflict" then 409
  else if contains lowerCode "internal" then 500
  else 400

def errorCategory (status : ℕ) (code : String) : String :=
  if startsWith (lib.toLower (trimSpace code)) "validation." then "validation_error"
  else match status with
    | 400 => "validation_error"
    | 401 => "unauthorized"
    | 403 => "forbidden"
    | 404 => "not_found"
    | 409 => "conflict"
    | status => if 500 ≤ status then "internal_server_error" else "application_error"

variable (translate : String → Fields → String)

def translateMessageWithFallback (code : String) (params : Fields) (fallback : String) : String :=
  if code = "" then fallback
  else if translate code params = "" then fallback
  else if translate code params = code ∧ fallback ≠ "" then fallback
  else translate code params

def errorStatus (e : AppError) : ℕ :=
  let status := if e.httpStatus = 0 then inferStatusFromCode lib e.code else e.httpStatus
  if status = 0 then 500 else status

def errorMessage (e : AppError) : String :=
  let message := translateMessageWithFallback translate e.code e.params e.fallbackMessage
  if message = "" then "an unexpected error occurred" else message

def mapError (registered : List Package) (requestID : String) (err : Err) : ℕ × ErrorBody :=
  match asAppError registered err with
  | none => (500,⟨"internal_server_error","","an unexpected error occurred",requestID,[]⟩)
  | some e => (errorStatus lib e,⟨errorCategory lib (errorStatus lib e) e.code,e.code,
      errorMessage translate e,requestID,e.details⟩)

end HTTP

section GRPC

inductive Code where
  | invalidArgument
  | failedPrecondition
  | unauthenticated
  | permissionDenied
  | notFound
  | alreadyExists
  | resourceExhausted
  | unimplemented
  | unavailable
  | internal
  deriving DecidableEq, Repr

def appCode (e : AppError) : Code :=
  match e.httpStatus with
  | 400 => .invalidArgument
  | 401 => .unauthenticated
  | 403 => .permissionDenied
  | 404 => .notFound
  | 409 => .alreadyExists
  | 429 => .resourceExhausted
  | 501 => .unimplemented
  | 503 => .unavailable
  | _ => if e.code = "validation.failed" then .invalidArgument else .internal

def grpcCode (registered : List Package) (err : Err) : Code :=
  match err.asInvalid with
  | some (.transport,_) => .invalidArgument
  | some (.contract,_) => .failedPrecondition
  | some (.domain,_) => .invalidArgument
  | _ => match asAppError registered err with
    | some e => appCode e
    | none => .internal

def safeMessage (registered : List Package) (err : Err) : String :=
  match err.asInvalid with
  | some (_,message) => if message ≠ "" then message else appMessage
  | none => appMessage
where
  appMessage := match asAppError registered err with
    | some e =>
        if e.fallbackMessage ≠ "" then e.fallbackMessage
        else if e.code ≠ "" then e.code
        else "internal error"
    | none => "internal error"

def statusError (registered : List Package) (err : Err) : Code × String :=
  (grpcCode registered err,safeMessage registered err)

end GRPC

section Wrapping

variable (registered : List Package) (pre post : String) (err : Err)

def recognised (registered : List Package) (err : Err) : Option Found :=
  registered.findSome? fun p => p.find err

theorem asInvalid_wrapped : (Err.wrapped pre post err).asInvalid = err.asInvalid := rfl

theorem findSome?_canonicalizer : (registered.findSome? fun p => p.canonicalizer err) =
    (recognised registered err).map (Found.canonical err.error) := by
  unfold recognised
  induction registered with
  | nil => rfl
  | cons p registered ih =>
    rw [List.findSome?_cons,List.findSome?_cons,Package.canonicalizer]
    cases p.find err with
    | none => exact ih
    | some found => rfl

theorem asAppError_eq : asAppError registered err =
    err.asApp.or ((recognised registered err).map (Found.canonical err.error)) := by
  unfold asAppError
  rw [findSome?_canonicalizer]
  cases err.asApp with
  | none => rfl
  | some e => rfl

theorem asAppError_wrapped : asAppError registered (.wrapped pre post err) =
    err.asApp.or ((recognised registered err).map (Found.canonical (pre ++ err.error ++ post))) :=
  asAppError_eq registered (.wrapped pre post err)

def Sentinel.code (s : Sentinel) : String := (canonicalSentinel s "").code

theorem canonicalSentinel_eq (s : Sentinel) (message : String) : canonicalSentinel s message =
    { canonicalSentinel s "" with fallbackMessage := message } := by
  cases s with
  | jobs kind | scheduler kind => cases kind <;> rfl
  | coordination kind => cases kind <;> rfl
  | cacheMiss | sessionNotFound | noSession | noRows => rfl

theorem params_canonicalSentinel (s : Sentinel) : (canonicalSentinel s "").params = [] := by
  cases s with
  | jobs kind | scheduler kind => cases kind <;> rfl
  | coordination kind => cases kind <;> rfl
  | cacheMiss | sessionNotFound | noSession | noRows => rfl

theorem code_ne_empty (s : Sentinel) : s.code ≠ "" := by
  cases s with
  | jobs kind | scheduler kind => cases kind <;> decide
  | coordination kind => cases kind <;> decide
  | cacheMiss | sessionNotFound | noSession | noRows => decide

variable (translate : String → Fields → String)

-- a catalog has a text of its own for the code
def Translated (s : Sentinel) : Prop := translate s.code [] ≠ "" ∧ translate s.code [] ≠ s.code

theorem errorMessage_sentinel (s : Sentinel) {message text : String} (hne : text ≠ "")
    (htext : translateMessageWithFallback translate s.code [] message = text) :
    errorMessage translate (canonicalSentinel s message) = text := by
  have hmessage : errorMessage translate (canonicalSentinel s message) =
      if translateMessageWithFallback translate s.code [] message = "" then
        "an unexpected error occurred"
      else translateMessageWithFallback translate s.code [] message := by
    rw [canonicalSentinel_eq,errorMessage,params_canonicalSentinel]
    rfl
  rw [hmessage,htext,if_neg hne]

theorem errorMessage_translated {s : Sentinel} (h : Translated translate s) (message : String) :
    errorMessage translate (canonicalSentinel s message) = translate s.code [] := by
  refine errorMessage_sentinel translate s h.1 ?_
  rw [translateMessageWithFallback,if_neg (code_ne_empty s),if_neg h.1,if_neg fun hcode => h.2 hcode.1]

theorem errorMessage_untranslated {s : Sentinel} (h : ¬ Translated translate s) {message : String}
    (hmessage : message ≠ "") : errorMessage translate (canonicalSentinel s message) = message := by
  refine errorMessage_sentinel translate s hmessage ?_
  rw [translateMessageWithFallback,if_neg (code_ne_empty s)]
  by_cases hempty : translate s.code [] = ""
  · rw [if_pos hempty]
  · have hcode : translate s.code [] = s.code := by
      by_contra hne
      exact h ⟨hempty,hne⟩
    rw [if_neg hempty,if_pos ⟨hcode,hmessage⟩]

theorem mapError_wrapped_sentinel (lib : Library) (requestID : String) {s : Sentinel}
    (happ : err.asApp = none) (hfound : recognised registered err = some (.sentinel s)) :
    mapError lib translate registered requestID (.wrapped pre post err) =
      (errorStatus lib (canonicalSentinel s ""),
        ⟨errorCategory lib (errorStatus lib (canonicalSentinel s "")) s.code,s.code,
          errorMessage translate (canonicalSentinel s (pre ++ err.error ++ post)),requestID,
          (canonicalSentinel s "").details⟩) := by
  have hkeep := canonicalSentinel_eq s (pre ++ err.error ++ post)
  unfold mapError
  rw [asAppError_wrapped,happ,hfound]
  simp only [Option.none_or,Option.map_some,Found.canonical]
  rw [hkeep]
  rfl

theorem asAppError_wrapped_other
    (hother : err.asApp.isSome = true ∨ ∀ s, recognised registered err ≠ some (.sentinel s)) :
    asAppError registered (.wrapped pre post err) = asAppError registered err := by
  rw [asAppError_wrapped,asAppError_eq]
  rcases hother with happ | hfound
  · obtain ⟨e,he⟩ := Option.isSome_iff_exists.mp happ
    rw [he]
    rfl
  · cases hrec : recognised registered err with
    | none => rfl
    | some found =>
      cases found with
      | sentinel s => exact absurd hrec (hfound s)
      | lock e => rfl

theorem statusError_wrapped_sentinel {s : Sentinel} (happ : err.asApp = none)
    (hfound : recognised registered err = some (.sentinel s))
    (hplain : ∀ layer message, err.asInvalid = some (layer,message) → message = "")
    (hpre : pre ≠ "") :
    (statusError registered (.wrapped pre post err)).2 = pre ++ err.error ++ post := by
  have hmessage : (canonicalSentinel s (pre ++ err.error ++ post)).fallbackMessage =
      pre ++ err.error ++ post := by rw [canonicalSentinel_eq]
  have happ : safeMessage.appMessage registered (.wrapped pre post err) = pre ++ err.error ++ post := by
    unfold safeMessage.appMessage
    rw [asAppError_wrapped,happ,hfound]
    simp only [Option.none_or,Option.map_some,Found.canonical,hmessage]
    rw [if_pos (by simp [hpre])]
  change safeMessage registered (.wrapped pre post err) = _
  unfold safeMessage
  rw [happ,asInvalid_wrapped]
  cases hlayer : err.asInvalid with
  | none => rfl
  | some found =>
    obtain ⟨layer,message⟩ := found
    simp [hplain layer message hlayer]

end Wrapping

section Exposure

variable (registered : List Package) (err : Err)

theorem http_hidden_iff (lib : Library) (translate : String → Fields → String) (requestID : String) :
    (∀ pre post pre' post', mapError lib translate registered requestID (.wrapped pre post err) =
      mapError lib translate registered requestID (.wrapped pre' post' err)) ↔
    err.asApp.isSome = true ∨
      ∀ s, recognised registered err = some (.sentinel s) → Translated translate s := by
  constructor
  · intro h
    by_contra hnot
    obtain ⟨happ,hexposed⟩ := not_or.mp hnot
    obtain ⟨s,hs⟩ := not_forall.mp hexposed
    obtain ⟨hfound,huntranslated⟩ := Classical.not_imp.mp hs
    have hnone : err.asApp = none := by simpa using happ
    have hsame := h "x" "" "y" ""
    rw [mapError_wrapped_sentinel registered _ _ err translate lib requestID hnone hfound,
      mapError_wrapped_sentinel registered _ _ err translate lib requestID hnone hfound,
      errorMessage_untranslated translate huntranslated (by simp),
      errorMessage_untranslated translate huntranslated (by simp)] at hsame
    simp at hsame
  · intro h pre post pre' post'
    by_cases hother : err.asApp.isSome = true ∨ ∀ s, recognised registered err ≠ some (.sentinel s)
    · unfold mapError
      rw [asAppError_wrapped_other registered pre post err hother,
        asAppError_wrapped_other registered pre' post' err hother]
    · obtain ⟨happ,hexposed⟩ := not_or.mp hother
      obtain ⟨s,hs⟩ := not_forall.mp hexposed
      have hfound := not_not.mp hs
      have hnone : err.asApp = none := by simpa using happ
      have htranslated := (h.resolve_left happ) s hfound
      rw [mapError_wrapped_sentinel registered _ _ err translate lib requestID hnone hfound,
        mapError_wrapped_sentinel registered _ _ err translate lib requestID hnone hfound,
        errorMessage_translated translate htranslated,errorMessage_translated translate htranslated]

theorem appCode_canonical (found : Found) (message message' : String) :
    appCode (found.canonical message) = appCode (found.canonical message') := by
  cases found with
  | sentinel s =>
    simp only [Found.canonical]
    rw [canonicalSentinel_eq s message,canonicalSentinel_eq s message']
    rfl
  | lock e => rfl

theorem grpcCode_wrapped (pre post pre' post' : String) :
    grpcCode registered (.wrapped pre post err) = grpcCode registered (.wrapped pre' post' err) := by
  unfold grpcCode
  rw [asAppError_wrapped,asAppError_wrapped,asInvalid_wrapped,asInvalid_wrapped]
  cases err.asApp with
  | some e => rfl
  | none =>
    cases recognised registered err with
    | none => rfl
    | some found =>
      simp only [Option.none_or,Option.map_some]
      rw [appCode_canonical found _ (pre' ++ err.error ++ post')]

theorem safeMessage_wrapped {layer : Layer} {message : String}
    (h : err.asInvalid = some (layer,message)) (hne : message ≠ "") (pre post : String) :
    safeMessage registered (.wrapped pre post err) = message := by
  rw [safeMessage,asInvalid_wrapped,h]
  exact if_pos hne

theorem grpc_hidden_iff :
    (∀ pre post pre' post', statusError registered (.wrapped pre post err) =
      statusError registered (.wrapped pre' post' err)) ↔
    (∃ layer message, err.asInvalid = some (layer,message) ∧ message ≠ "") ∨
      err.asApp.isSome = true ∨ ∀ s, recognised registered err ≠ some (.sentinel s) := by
  constructor
  · intro h
    by_contra hnot
    obtain ⟨hplain,hother⟩ := not_or.mp hnot
    obtain ⟨happ,hexposed⟩ := not_or.mp hother
    obtain ⟨s,hs⟩ := not_forall.mp hexposed
    have hnone : err.asApp = none := by simpa using happ
    have hempty : ∀ layer message, err.asInvalid = some (layer,message) → message = "" := by
      intro layer message hfound
      by_contra hne
      exact hplain ⟨layer,message,hfound,hne⟩
    have hsame := congrArg Prod.snd (h "x" "" "y" "")
    rw [statusError_wrapped_sentinel registered _ _ err hnone (not_not.mp hs) hempty (by decide),
      statusError_wrapped_sentinel registered _ _ err hnone (not_not.mp hs) hempty (by decide)] at hsame
    simp at hsame
  · intro h pre post pre' post'
    refine Prod.ext (grpcCode_wrapped registered err pre post pre' post') ?_
    change safeMessage registered (.wrapped pre post err) = safeMessage registered (.wrapped pre' post' err)
    rcases h with ⟨layer,message,hinvalid,hne⟩ | hother
    · rw [safeMessage_wrapped registered err hinvalid hne,safeMessage_wrapped registered err hinvalid hne]
    · have hsame := (asAppError_wrapped_other registered pre post err hother).trans
        (asAppError_wrapped_other registered pre' post' err hother).symm
      unfold safeMessage safeMessage.appMessage
      rw [hsame,asInvalid_wrapped,asInvalid_wrapped]

end Exposure

theorem wrapping_hidden_iff (lib : Library) (translate : String → Fields → String)
    (registered : List Package) (requestID : String) (err : Err) :
    ((∀ pre post pre' post', mapError lib translate registered requestID (.wrapped pre post err) =
        mapError lib translate registered requestID (.wrapped pre' post' err)) ↔
      err.asApp.isSome = true ∨
        ∀ s, recognised registered err = some (.sentinel s) → Translated translate s) ∧
    ((∀ pre post pre' post', statusError registered (.wrapped pre post err) =
        statusError registered (.wrapped pre' post' err)) ↔
      (∃ layer message, err.asInvalid = some (layer,message) ∧ message ≠ "") ∨
        err.asApp.isSome = true ∨ ∀ s, recognised registered err ≠ some (.sentinel s)) :=
  ⟨http_hidden_iff registered err lib translate requestID,grpc_hidden_iff registered err⟩

section Registration

def Sentinel.package : Sentinel → Package
  | .jobs _ => .jobs
  | .scheduler _ => .scheduler
  | .coordination _ => .coordination
  | .cacheMiss => .cache
  | .sessionNotFound => .session
  | .noSession => .httpSession
  | .noRows => .relational

def Found.package : Found → Package
  | .sentinel s => s.package
  | .lock _ => .relational

def Sentinel.all : List Sentinel :=
  Kind.all.map Sentinel.jobs ++ Kind.all.map Sentinel.scheduler ++
    CoordinationKind.all.map Sentinel.coordination ++
    [Sentinel.cacheMiss,Sentinel.sessionNotFound,Sentinel.noSession,Sentinel.noRows]

theorem Sentinel.mem_all (s : Sentinel) : s ∈ Sentinel.all := by
  cases s with
  | jobs kind | scheduler kind => cases kind <;> decide
  | coordination kind => cases kind <;> decide
  | cacheMiss | sessionNotFound | noSession | noRows => decide

theorem package_of_mem_sentinels {p : Package} {s : Sentinel} (h : s ∈ p.sentinels) : s.package = p := by
  cases p with
  | jobs | scheduler | coordination =>
    obtain ⟨kind,-,rfl⟩ := List.mem_map.mp h
    rfl
  | cache | relational | httpSession | session =>
    rw [List.mem_singleton.mp h]
    rfl

theorem package_of_find {p : Package} {err : Err} {found : Found} (h : p.find err = some found) :
    found.package = p := by
  unfold Package.find at h
  cases hfind : p.sentinels.find? err.is with
  | some s =>
    rw [hfind] at h
    cases h
    exact package_of_mem_sentinels (List.mem_of_find?_eq_some hfind)
  | none =>
    rw [hfind] at h
    obtain ⟨hp,hlock⟩ := Option.ite_none_right_eq_some.mp h
    obtain ⟨e,-,rfl⟩ := Option.map_eq_some_iff.mp hlock
    exact hp.symm

-- a code and its details belong to one package
theorem package_of_label : ∀ s ∈ Sentinel.all, ∀ t ∈ Sentinel.all,
    (canonicalSentinel s "").code = (canonicalSentinel t "").code →
      (canonicalSentinel s "").details = (canonicalSentinel t "").details → s.package = t.package := by
  decide +kernel

theorem code_ne_lock : ∀ s ∈ Sentinel.all, (canonicalSentinel s "").code ≠ "resource.conflict" := by
  decide +kernel

theorem package_of_canonical {found other : Found} {message : String}
    (h : found.canonical message = other.canonical message) : found.package = other.package := by
  have hcode := congrArg AppError.code h
  have hdetails := congrArg AppError.details h
  cases found with
  | sentinel s =>
    cases other with
    | sentinel t =>
      simp only [Found.canonical] at hcode hdetails
      rw [canonicalSentinel_eq s,canonicalSentinel_eq t] at hcode hdetails
      exact package_of_label s s.mem_all t t.mem_all hcode hdetails
    | lock e =>
      simp only [Found.canonical] at hcode
      rw [canonicalSentinel_eq s] at hcode
      exact absurd hcode (code_ne_lock s s.mem_all)
  | lock e =>
    cases other with
    | sentinel t =>
      simp only [Found.canonical] at hcode
      rw [canonicalSentinel_eq t] at hcode
      exact absurd hcode.symm (code_ne_lock t t.mem_all)
    | lock f => rfl

theorem agree_canonicalizer_iff (registered : List Package) (err : Err) :
    Agree (fun p => p.canonicalizer err) registered ↔
      ∀ p ∈ registered, ∀ q ∈ registered, (p.find err).isSome = true → (q.find err).isSome = true →
        p = q := by
  constructor
  · intro h p hp q hq hpfind hqfind
    obtain ⟨found,hfound⟩ := Option.isSome_iff_exists.mp hpfind
    obtain ⟨other,hother⟩ := Option.isSome_iff_exists.mp hqfind
    have hsame := h p hp q hq (found.canonical err.error) (other.canonical err.error)
      (by simp [Package.canonicalizer,hfound]) (by simp [Package.canonicalizer,hother])
    rw [← package_of_find hfound,← package_of_find hother]
    exact package_of_canonical hsame
  · intro h p hp q hq x y hx hy
    obtain ⟨found,hfound,rfl⟩ := Option.map_eq_some_iff.mp hx
    obtain ⟨other,hother,rfl⟩ := Option.map_eq_some_iff.mp hy
    have hpq := h p hp q hq (by simp [hfound]) (by simp [hother])
    subst hpq
    rw [hfound] at hother
    rw [Option.some.inj hother]

end Registration

theorem canonical_order_free_iff (registered : List Package) (err : Err) :
    (∀ first second : List Package, first.Perm registered → second.Perm registered →
      asAppError first err = asAppError second err) ↔
    err.asApp.isSome = true ∨ ∀ p ∈ registered, ∀ q ∈ registered, (p.find err).isSome = true →
      (q.find err).isSome = true → p = q := by
  unfold asAppError
  cases err.asApp with
  | some e => simp
  | none =>
    simp only [Option.isSome_none,Bool.false_eq_true,false_or]
    rw [← agree_canonicalizer_iff,agree_iff]

end Nimburion.Core.Errors
