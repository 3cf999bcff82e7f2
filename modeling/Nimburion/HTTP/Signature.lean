import Nimburion.Lib.Decimal
import Nimburion.Lib.GoText
import Nimburion.Lib.GoTime
import Nimburion.Lib.RFC3339

namespace Nimburion.HTTP.Signature
open GoTime GoText

abbrev Bytes := List UInt8

structure Library where
  toUpper : String → String
  sum256 : Bytes → Bytes
  hmac : Bytes → String → Bytes
  decodeString : String → Option Bytes

structure Config where
  enabled : Bool
  hasKeyProvider : Bool
  keyIDHeader : String
  timestampHeader : String
  nonceHeader : String
  signatureHeader : String
  maxClockSkew : Int64
  nonceTTL : Int64
  requireNonce : Bool
  excludedPathPrefixes : List String
  deriving DecidableEq, Repr

def defaultConfig : Config :=
  { enabled := true, hasKeyProvider := false, keyIDHeader := "X-Key-Id",
    timestampHeader := "X-Timestamp", nonceHeader := "X-Nonce", signatureHeader := "X-Signature",
    maxClockSkew := 300000000000, nonceTTL := 600000000000, requireNonce := true,
    excludedPathPrefixes := ["/health","/metrics","/ready","/version"] }

-- the nonce store is the in-memory one
def normalizeConfig (cfg : Config) : Config :=
  { cfg with
    keyIDHeader := if trimSpace cfg.keyIDHeader = "" then defaultConfig.keyIDHeader
      else cfg.keyIDHeader
    timestampHeader := if trimSpace cfg.timestampHeader = "" then defaultConfig.timestampHeader
      else cfg.timestampHeader
    nonceHeader := if trimSpace cfg.nonceHeader = "" then defaultConfig.nonceHeader
      else cfg.nonceHeader
    signatureHeader := if trimSpace cfg.signatureHeader = "" then defaultConfig.signatureHeader
      else cfg.signatureHeader
    maxClockSkew := if cfg.maxClockSkew ≤ 0 then defaultConfig.maxClockSkew else cfg.maxClockSkew
    nonceTTL := if cfg.nonceTTL ≤ 0 then defaultConfig.nonceTTL else cfg.nonceTTL
    excludedPathPrefixes := if cfg.excludedPathPrefixes = [] then defaultConfig.excludedPathPrefixes
      else cfg.excludedPathPrefixes }

-- `header` is Header.Get; the body is absent when it cannot be read
structure Request where
  method : String
  path : String
  escapedPath : String
  rawQuery : String
  header : String → String
  body : Option Bytes

-- a request with what its calls return: SecretForKey and the two readings of the clock, for the
-- window and inside Use
structure Arrival where
  req : Request
  secret : Option Bytes
  arrived : Time
  used : Time

def isExcluded (path : String) (prefixes : List String) : Bool :=
  prefixes.any fun p => trimSpace p ≠ "" && (trimSpace p).toList.isPrefixOf path.toList

-- time.Unix counts from the year 1 in 64 bits
def unix (sec : Int64) : Time := ((sec+62135596800).toInt-62135596800)*second

def parseTimestamp (raw : String) : Option Time :=
  if raw = "" then none
  else match Decimal.atoi raw with
    | .ok sec => some (unix sec)
    | .error _ => parseRFC3339Nano raw

-- Time.Sub
def sub (t u : Time) : Int := max (-2^63) (min (2^63-1) (t-u))

def hexByte (b : UInt8) : List Char := [hexDigit (b.toNat/16),hexDigit (b.toNat%16)]

def hexEncode (bs : Bytes) : String := String.ofList (bs.flatMap hexByte)

def buildPayload (lib : Library) (req : Request) (timestamp nonce : String) (body : Bytes) : String :=
  let requestURI := req.escapedPath ++ if req.rawQuery ≠ "" then "?" ++ req.rawQuery else ""
  "\n".intercalate [lib.toUpper req.method,requestURI,timestamp,nonce,hexEncode (lib.sum256 body)]

def trimPrefix (s pre : String) : String :=
  if pre.toList.isPrefixOf s.toList then String.ofList (s.toList.drop pre.length) else s

def decodeSignature (lib : Library) (raw : String) : Option Bytes :=
  let value := trimPrefix (trimSpace raw) "sha256="
  if value = "" then none else lib.decodeString value

structure Verified where
  keyID : String
  timestamp : Time
  nonce : String
  deriving DecidableEq, Repr

structure Rejection where
  status : ℕ
  error : String
  reason : String
  message : String
  deriving DecidableEq, Repr

def unauthorized (reason : String) : Rejection :=
  ⟨401,"invalid_request_signature",reason,"request rejected: " ++ reason⟩

-- everything the middleware asks before the nonce store
def verify (lib : Library) (cfg : Config) (a : Arrival) : Except Rejection Verified :=
  let keyID := trimSpace (a.req.header cfg.keyIDHeader)
  let timestampRaw := trimSpace (a.req.header cfg.timestampHeader)
  let signatureRaw := trimSpace (a.req.header cfg.signatureHeader)
  let nonce := trimSpace (a.req.header cfg.nonceHeader)
  if cfg.hasKeyProvider = false then .error (unauthorized "missing_key_provider")
  else if keyID = "" then .error (unauthorized "missing_key_id")
  else if timestampRaw = "" then .error (unauthorized "missing_timestamp")
  else if signatureRaw = "" then .error (unauthorized "missing_signature")
  else if cfg.requireNonce ∧ nonce = "" then .error (unauthorized "missing_nonce")
  else match parseTimestamp timestampRaw with
    | none => .error (unauthorized "invalid_timestamp")
    | some timestamp =>
        let skew := sub a.arrived timestamp
        if cfg.maxClockSkew.toInt < skew ∨ skew < -cfg.maxClockSkew.toInt then
          .error (unauthorized "timestamp_out_of_window")
        else match a.secret,a.req.body with
          | some (b :: secret),some body =>
              let payload := buildPayload lib a.req timestampRaw nonce body
              if decodeSignature lib signatureRaw = some (lib.hmac (b :: secret) payload) then
                .ok ⟨keyID,timestamp,nonce⟩
              else .error (unauthorized "invalid_signature")
          | some (_ :: _),none => .error (unauthorized "invalid_body")
          | _,_ => .error (unauthorized "unknown_key_id")

abbrev Items := String → Option Time

def unexpired (items : Items) (now : Time) : Items := fun k => (items k).filter fun exp => !(exp < now)

-- InMemoryNonceStore.Use at the time it reads
def use (items : Items) (now : Time) (key : String) (ttl : Int) : Bool × Items :=
  if trimSpace key = "" then (false,items)
  else if (unexpired items now key).any fun exp => now < exp then (false,unexpired items now)
  else (true,fun k => if k = key then some (now+ttl) else unexpired items now k)

def nonceKey (v : Verified) : String := v.keyID ++ ":" ++ v.nonce

inductive Outcome where
  | skipped
  | passed (v : Verified)
  | rejected (r : Rejection)
  deriving DecidableEq, Repr

-- `accepted` is the history of the requests that were passed on, with the time of their use
structure State where
  items : Items
  clock : Time
  accepted : List (Verified × Time)

def freshState (clock : Time) : State := ⟨fun _ => none,clock,[]⟩

def serve (lib : Library) (cfg : Config) (s : State) (a : Arrival) : Outcome × State :=
  let s := { s with clock := a.used }
  if !cfg.enabled || isExcluded a.req.path cfg.excludedPathPrefixes then (.skipped,s)
  else match verify lib cfg a with
    | .error r => (.rejected r,s)
    | .ok v =>
        if cfg.requireNonce then
          let (fresh,items) := use s.items a.used (nonceKey v) cfg.nonceTTL.toInt
          if fresh then (.passed v,{ s with items := items, accepted := (v,a.used) :: s.accepted })
          else (.rejected (unauthorized "replayed_request"),{ s with items := items })
        else (.passed v,{ s with accepted := (v,a.used) :: s.accepted })

def middleware (lib : Library) (cfg : Config) : State → Arrival → Outcome × State :=
  serve lib (normalizeConfig cfg)

section Runs

variable (lib : Library) (cfg : Config)

def Along (P : State → Arrival → Prop) : State → List Arrival → Prop
  | _, [] => True
  | s, a :: as => P s a ∧ Along P (middleware lib cfg s a).2 as

-- the clock does not go back
def timely (s : State) (a : Arrival) : Prop := s.clock ≤ a.used ∧ a.arrived ≤ a.used

def acceptedOnce (s : State) (a : Arrival) : Prop :=
  (∀ v, (middleware lib cfg s a).1 = .passed v → ∀ b ∈ s.accepted,
    ¬ (b.1.keyID = v.keyID ∧ b.1.timestamp = v.timestamp ∧ b.1.nonce = v.nonce)) ∧
  (∀ v r, verify lib (normalizeConfig cfg) a = .ok v → (middleware lib cfg s a).1 = .rejected r →
    ∃ b ∈ s.accepted, b.1.keyID = v.keyID ∧ b.1.nonce = v.nonce)

-- a nonce outlives both sides of the window and the time between the two readings, and only
-- requests of one key share an entry
def nonceCovers (s : State) (a : Arrival) : Prop :=
  ∀ v, verify lib (normalizeConfig cfg) a = .ok v →
    2*(normalizeConfig cfg).maxClockSkew.toInt+(a.used-a.arrived) <
      (normalizeConfig cfg).nonceTTL.toInt ∧
    ∀ b ∈ s.accepted, nonceKey b.1 = nonceKey v → b.1.keyID = v.keyID

end Runs

theorem ok_of_guard {ε α : Type} {p : Prop} [Decidable p] {err : ε} {x : Except ε α} {v : α}
    (h : (if p then .error err else x) = .ok v) : ¬ p ∧ x = .ok v := by
  split_ifs at h with hp
  exact ⟨hp,h⟩

theorem verify_ok {lib : Library} {cfg : Config} {a : Arrival} {v : Verified}
    (h : verify lib cfg a = .ok v) : sub a.arrived v.timestamp ≤ cfg.maxClockSkew.toInt ∧
      -cfg.maxClockSkew.toInt ≤ sub a.arrived v.timestamp := by
  unfold verify at h
  dsimp only at h
  obtain ⟨_,h⟩ := ok_of_guard h
  obtain ⟨_,h⟩ := ok_of_guard h
  obtain ⟨_,h⟩ := ok_of_guard h
  obtain ⟨_,h⟩ := ok_of_guard h
  obtain ⟨_,h⟩ := ok_of_guard h
  split at h
  · cases h
  · obtain ⟨hskew,h⟩ := ok_of_guard h
    split at h
    · split_ifs at h
      cases h
      dsimp only
      exact ⟨by omega,by omega⟩
    · cases h
    · cases h

theorem nonceKey_not_blank (v : Verified) : trimSpace (nonceKey v) ≠ "" := by
  intro h
  have hcolon := (trimSpace_eq_empty_iff _).mp h ':' (by simp [nonceKey])
  exact absurd hcolon (by decide)

section Uses

variable {items : Items} {now : Time} {key k : String} {exp : Time}

theorem unexpired_eq_some : unexpired items now k = some exp ↔ items k = some exp ∧ now ≤ exp := by
  simp [unexpired,Option.filter_eq_some_iff]

theorem use_cases (items : Items) (now ttl : Int) (hkey : trimSpace key ≠ "") :
    ((∃ exp, items key = some exp ∧ now < exp) ∧
      use items now key ttl = (false,unexpired items now)) ∨
    ((∀ exp, items key = some exp → exp ≤ now) ∧
      use items now key ttl =
        (true,fun k => if k = key then some (now+ttl) else unexpired items now k)) := by
  unfold use
  rw [if_neg hkey]
  cases hu : unexpired items now key with
  | none =>
    refine .inr ⟨fun exp hexp => ?_,rfl⟩
    by_contra hlt
    have hsome := unexpired_eq_some.mpr ⟨hexp,Int.le_of_lt (Int.not_le.mp hlt)⟩
    rw [hu] at hsome
    cases hsome
  | some exp =>
    obtain ⟨hexp,hle⟩ := unexpired_eq_some.mp hu
    by_cases hlt : now < exp
    · exact .inl ⟨⟨exp,hexp,hlt⟩,by simp [hlt]⟩
    · refine .inr ⟨fun exp' hexp' => ?_,by simp [hlt]⟩
      rw [hexp,Option.some.injEq] at hexp'
      exact hexp' ▸ Int.not_lt.mp hlt

end Uses

-- a request leaves the nonces alone, is turned away by an entry that has not expired, or makes one
theorem serve_cases (lib : Library) {cfg : Config} (hnonce : cfg.requireNonce = true) (s : State)
    (a : Arrival) :
    (((serve lib cfg s a).1 = .skipped ∨
        ∃ r, (serve lib cfg s a).1 = .rejected r ∧ ∀ v, verify lib cfg a ≠ .ok v) ∧
      (serve lib cfg s a).2 = { s with clock := a.used }) ∨
    (∃ v, verify lib cfg a = .ok v ∧
      ((∃ exp, s.items (nonceKey v) = some exp ∧ a.used < exp) ∧
        serve lib cfg s a = (.rejected (unauthorized "replayed_request"),
          { s with clock := a.used, items := unexpired s.items a.used }) ∨
      ((∀ exp, s.items (nonceKey v) = some exp → exp ≤ a.used) ∧
        serve lib cfg s a = (.passed v,⟨fun k => if k = nonceKey v then
          some (a.used+cfg.nonceTTL.toInt) else unexpired s.items a.used k,a.used,
          (v,a.used) :: s.accepted⟩)))) := by
  unfold serve
  dsimp only
  split_ifs with hskip
  · exact .inl ⟨.inl rfl,rfl⟩
  · cases hv : verify lib cfg a with
    | error r => exact .inl ⟨.inr ⟨r,rfl,by simp⟩,rfl⟩
    | ok v =>
      refine .inr ⟨v,rfl,?_⟩
      obtain ⟨hlive,huse⟩ | ⟨hold,huse⟩ :=
        use_cases s.items a.used cfg.nonceTTL.toInt (nonceKey_not_blank v)
      · exact .inl ⟨hlive,by simp [huse]⟩
      · exact .inr ⟨hold,by simp [huse]⟩

theorem timestamp_le {skew : Int64} {t u : Time} (h : -skew.toInt ≤ sub t u) :
    u ≤ t+skew.toInt := by
  have hskew := skew.toInt_lt
  unfold sub at h
  unfold Time at *
  omega

theorem le_timestamp {skew : Int64} {t u : Time} (hskew : skew.toInt < 2^62)
    (h : sub t u ≤ skew.toInt) : t ≤ u+skew.toInt := by
  unfold sub at h
  unfold Time at *
  omega

structure Remembers (skew ttl : Int) (s : State) : Prop where
  used : ∀ b ∈ s.accepted, b.2 ≤ s.clock
  window : ∀ b ∈ s.accepted, b.1.timestamp ≤ b.2+skew
  kept : ∀ b ∈ s.accepted,
    (∃ exp, s.items (nonceKey b.1) = some exp ∧ b.2+ttl ≤ exp) ∨ b.2+ttl < s.clock
  known : ∀ k exp, s.items k = some exp → ∃ b ∈ s.accepted, nonceKey b.1 = k

namespace Remembers

variable {skew ttl : Int} {s : State} {now : Time}

theorem fresh (clock : Time) : Remembers skew ttl (freshState clock) :=
  ⟨by simp [freshState],by simp [freshState],by simp [freshState],by simp [freshState]⟩

theorem tick (h : Remembers skew ttl s) (hnow : s.clock ≤ now) :
    Remembers skew ttl { s with clock := now } := by
  refine ⟨fun b hb => Int.le_trans (h.used b hb) hnow,h.window,fun b hb => ?_,h.known⟩
  rcases h.kept b hb with hkept | hgone
  · exact .inl hkept
  · exact .inr (Int.lt_of_lt_of_le hgone hnow)

theorem kept_unexpired (h : Remembers skew ttl s) (hnow : s.clock ≤ now)
    {b : Verified × Time} (hb : b ∈ s.accepted) :
    (∃ exp, unexpired s.items now (nonceKey b.1) = some exp ∧ b.2+ttl ≤ exp) ∨ b.2+ttl < now := by
  rcases h.kept b hb with ⟨exp,hexp,hle⟩ | hgone
  · rcases Int.lt_or_le exp now with hlt | hge
    · exact .inr (Int.lt_of_le_of_lt hle hlt)
    · exact .inl ⟨exp,unexpired_eq_some.mpr ⟨hexp,hge⟩,hle⟩
  · exact .inr (Int.lt_of_lt_of_le hgone hnow)

theorem purge (h : Remembers skew ttl s) (hnow : s.clock ≤ now) :
    Remembers skew ttl { s with clock := now, items := unexpired s.items now } :=
  ⟨fun b hb => Int.le_trans (h.used b hb) hnow,h.window,fun _ hb => h.kept_unexpired hnow hb,
    fun k exp hexp => h.known k exp (unexpired_eq_some.mp hexp).1⟩

theorem accept (h : Remembers skew ttl s) (hnow : s.clock ≤ now) {v : Verified}
    (hwindow : v.timestamp ≤ now+skew) : Remembers skew ttl
      ⟨fun k => if k = nonceKey v then some (now+ttl) else unexpired s.items now k,now,
        (v,now) :: s.accepted⟩ := by
  refine ⟨?_,?_,?_,?_⟩
  · rintro b (_ | ⟨_,hb⟩)
    · exact Int.le_refl now
    · exact Int.le_trans (h.used b hb) hnow
  · rintro b (_ | ⟨_,hb⟩)
    · exact hwindow
    · exact h.window b hb
  · rintro b (_ | ⟨_,hb⟩)
    · exact .inl ⟨now+ttl,by simp,Int.le_refl _⟩
    · by_cases hkey : nonceKey b.1 = nonceKey v
      · have hused := Int.le_trans (h.used b hb) hnow
        exact .inl ⟨now+ttl,by simp [hkey],Int.add_le_add_right hused ttl⟩
      · simpa [hkey] using h.kept_unexpired hnow hb
  · intro k exp hexp
    dsimp only at hexp
    split_ifs at hexp with hk
    · exact ⟨(v,now),List.mem_cons_self,hk.symm⟩
    · obtain ⟨b,hb,hbk⟩ := h.known k exp (unexpired_eq_some.mp hexp).1
      exact ⟨b,List.mem_cons_of_mem _ hb,hbk⟩

end Remembers

section Acceptance

variable {lib : Library} {cfg : Config} {s : State} {a : Arrival}

theorem Remembers.step (hnonce : cfg.requireNonce = true)
    (h : Remembers cfg.maxClockSkew.toInt cfg.nonceTTL.toInt s) (htime : timely s a) :
    Remembers cfg.maxClockSkew.toInt cfg.nonceTTL.toInt (serve lib cfg s a).2 := by
  obtain ⟨_,hs⟩ | ⟨v,hv,⟨_,hs⟩ | ⟨_,hs⟩⟩ := serve_cases lib hnonce s a
  · rw [hs]
    exact h.tick htime.1
  · rw [hs]
    exact h.purge htime.1
  · rw [hs]
    have hle := timestamp_le (verify_ok hv).2
    exact h.accept htime.1 (Int.le_trans hle (Int.add_le_add_right htime.2 _))

-- an accepted request's entry has not expired when a copy of it is still in its window
theorem Remembers.live {v : Verified} {b : Verified × Time}
    (h : Remembers cfg.maxClockSkew.toInt cfg.nonceTTL.toInt s) (htime : timely s a)
    (hv : verify lib cfg a = .ok v)
    (hcover : 2*cfg.maxClockSkew.toInt+(a.used-a.arrived) < cfg.nonceTTL.toInt)
    (hb : b ∈ s.accepted) (hkey : nonceKey b.1 = nonceKey v) (hts : b.1.timestamp = v.timestamp) :
    ∃ exp, s.items (nonceKey v) = some exp ∧ a.used < exp := by
  have hskew : cfg.maxClockSkew.toInt < 2^62 := by
    have httl := cfg.nonceTTL.toInt_lt
    have hdelay := htime.2
    unfold Time at *
    omega
  have harrived := le_timestamp hskew (verify_ok hv).1
  have hwindow := h.window b hb
  have hclock := htime.1
  rcases h.kept b hb with ⟨exp,hexp,hle⟩ | hgone
  · refine ⟨exp,hkey ▸ hexp,?_⟩
    rw [hts] at hwindow
    unfold Time at *
    omega
  · rw [hts] at hwindow
    unfold Time at *
    omega

theorem requireNonce_normalized (h : cfg.requireNonce = true) :
    (normalizeConfig cfg).requireNonce = true := h

theorem Remembers.acceptedOnce (hnonce : cfg.requireNonce = true)
    (h : Remembers (normalizeConfig cfg).maxClockSkew.toInt (normalizeConfig cfg).nonceTTL.toInt s)
    (htime : timely s a) (hcover : nonceCovers lib cfg s a) : acceptedOnce lib cfg s a := by
  obtain ⟨hout,_⟩ | ⟨v,hv,⟨⟨exp,hexp,_⟩,hs⟩ | ⟨hold,hs⟩⟩ :=
    serve_cases lib (requireNonce_normalized hnonce) s a
  · refine ⟨fun v hpass => ?_,fun v r hv => ?_⟩
    · rcases hout with hskip | ⟨r,hrej,_⟩
      · rw [middleware,hskip] at hpass
        cases hpass
      · rw [middleware,hrej] at hpass
        cases hpass
    · rcases hout with hskip | ⟨_,_,hnone⟩
      · intro hrej
        rw [middleware,hskip] at hrej
        cases hrej
      · exact absurd hv (hnone v)
  · refine ⟨fun v' hpass => ?_,fun v' r hv' _ => ?_⟩
    · rw [middleware,hs] at hpass
      cases hpass
    · rw [hv,Except.ok.injEq] at hv'
      subst hv'
      obtain ⟨b,hb,hkey⟩ := h.known _ exp hexp
      have hid := (hcover v hv).2 b hb hkey
      refine ⟨b,hb,hid,?_⟩
      rw [nonceKey,nonceKey,hid] at hkey
      simpa using hkey
  · refine ⟨fun v' hpass b hb hsame => ?_,fun v' r _ hrej => ?_⟩
    · rw [middleware,hs] at hpass
      cases hpass
      have hkey : nonceKey b.1 = nonceKey v := by rw [nonceKey,nonceKey,hsame.1,hsame.2.2]
      obtain ⟨exp,hexp,hlt⟩ := h.live htime hv (hcover v hv).1 hb hkey hsame.2.1
      exact absurd (hold exp hexp) (Int.not_le.mpr hlt)
    · rw [middleware,hs] at hrej
      cases hrej

theorem Remembers.along (hnonce : cfg.requireNonce = true) {arrivals : List Arrival}
    (h : Remembers (normalizeConfig cfg).maxClockSkew.toInt (normalizeConfig cfg).nonceTTL.toInt s)
    (htime : Along lib cfg timely s arrivals)
    (hcover : Along lib cfg (nonceCovers lib cfg) s arrivals) :
    Along lib cfg (Signature.acceptedOnce lib cfg) s arrivals := by
  induction arrivals generalizing s with
  | nil => trivial
  | cons a arrivals ih =>
    exact ⟨h.acceptedOnce hnonce htime.1 hcover.1,
      ih (h.step (requireNonce_normalized hnonce) htime.1) htime.2 hcover.2⟩

end Acceptance

theorem signed_requests_accepted_once (lib : Library) (cfg : Config)
    (hnonce : cfg.requireNonce = true) (clock : Time) (arrivals : List Arrival)
    (htime : Along lib cfg timely (freshState clock) arrivals)
    (hcover : Along lib cfg (nonceCovers lib cfg) (freshState clock) arrivals) :
    Along lib cfg (acceptedOnce lib cfg) (freshState clock) arrivals :=
  (Remembers.fresh clock).along hnonce htime hcover

-- the key "partner" with the secret "s3cret" signs an order, its timestamp is 1700000000
def orderMac : Bytes :=
  [213,94,43,195,84,165,224,35,126,118,216,149,134,35,179,211,238,48,180,172,195,208,192,204,163,
    204,80,26,60,48,157,127]

def orderPayload : String :=
  "POST\n/orders\n1700000000\nn-1\ne3b0c44298fc1c149afbf4c8996fb92427ae41e4649b934ca495991b7852b855"

def orderLibrary : Library where
  toUpper := String.toUpper
  sum256 := fun body => if body = [] then
    [227,176,196,66,152,252,28,20,154,251,244,200,153,111,185,36,39,174,65,228,100,155,147,76,164,
      149,153,27,120,82,184,85] else []
  hmac := fun secret payload =>
    if secret = [115,51,99,114,101,116] ∧ payload = orderPayload then orderMac else []
  decodeString := fun s =>
    if s = "1V4rw1Sl4CN+dtiVhiOz0+4wtKzD0MDMo8xQGjwwnX8=" then some orderMac else none

def orderHeader : String → String
  | "X-Key-Id" => "partner"
  | "X-Timestamp" => "1700000000"
  | "X-Nonce" => "n-1"
  | "X-Signature" => "sha256=1V4rw1Sl4CN+dtiVhiOz0+4wtKzD0MDMo8xQGjwwnX8="
  | _ => ""

def orderAt (sec : Int) : Arrival :=
  ⟨⟨"POST","/orders","/orders","",orderHeader,some []⟩,some [115,51,99,114,101,116],sec*second,
    sec*second⟩

def order : Verified := ⟨"partner",1700000000*second,"n-1"⟩

def shopConfig (ttl : Int64) : Config :=
  { defaultConfig with hasKeyProvider := true, nonceTTL := ttl }

theorem shopConfig_normalized {ttl : Int64} (httl : ¬ ttl ≤ 0) :
    normalizeConfig (shopConfig ttl) = shopConfig ttl := by
  have hnames : ∀ name ∈ ["X-Key-Id","X-Timestamp","X-Nonce","X-Signature"],
      trimSpace name = name := by
    intro name hname
    simp only [List.mem_cons,List.not_mem_nil,or_false] at hname
    apply trimSpace_of_all
    rcases hname with rfl | rfl | rfl | rfl <;> simp only [String.reduceToList] <;> rfl
  simp only [List.forall_mem_cons] at hnames
  simp [normalizeConfig,shopConfig,defaultConfig,hnames,httl]

theorem verify_order (ttl : Int64) {sec : Int} (hlow : 1699999700 ≤ sec) (hhigh : sec ≤ 1700000300) :
    verify orderLibrary (shopConfig ttl) (orderAt sec) = .ok order := by
  have hvalues : ∀ value ∈ ["partner","1700000000","n-1",
      "sha256=1V4rw1Sl4CN+dtiVhiOz0+4wtKzD0MDMo8xQGjwwnX8="], trimSpace value = value := by
    intro value hvalue
    simp only [List.mem_cons,List.not_mem_nil,or_false] at hvalue
    apply trimSpace_of_all
    rcases hvalue with rfl | rfl | rfl | rfl <;> simp only [String.reduceToList] <;> rfl
  have hparse : parseTimestamp "1700000000" = some (1700000000*second) := by decide +kernel
  have hpayload : buildPayload orderLibrary (orderAt sec).req "1700000000" "n-1" [] = orderPayload :=
    (by decide +kernel :
      buildPayload orderLibrary (orderAt 0).req "1700000000" "n-1" [] = orderPayload)
  have hsignature : decodeSignature orderLibrary
      "sha256=1V4rw1Sl4CN+dtiVhiOz0+4wtKzD0MDMo8xQGjwwnX8=" = some orderMac := by decide +kernel
  have hwindow : ¬ ((300000000000 : Int64).toInt < sub (sec*second) (1700000000*second) ∨
      sub (sec*second) (1700000000*second) < -(300000000000 : Int64).toInt) := by
    have hlimit : (300000000000 : Int64).toInt = 300000000000 := by decide
    rw [hlimit]
    unfold sub second
    omega
  simp only [List.forall_mem_cons] at hvalues
  obtain ⟨hkey,htime,hnonce,hsig,_⟩ := hvalues
  simp only [verify,shopConfig,defaultConfig,orderAt,orderHeader,hkey,htime,hnonce,hsig,hparse]
  rw [if_neg hwindow]
  have hmac : orderLibrary.hmac [115,51,99,114,101,116] orderPayload = orderMac := by
    simp [orderLibrary]
  simp only [orderAt] at hpayload
  rw [hpayload,hmac,hsignature]
  simp [order]

theorem middleware_order {ttl : Int64} (httl : ¬ ttl ≤ 0) {sec : Int} (hlow : 1699999700 ≤ sec)
    (hhigh : sec ≤ 1700000300) (s : State) :
    middleware orderLibrary (shopConfig ttl) s (orderAt sec) =
      if (use s.items (sec*second) (nonceKey order) ttl.toInt).1 then
        (.passed order,⟨(use s.items (sec*second) (nonceKey order) ttl.toInt).2,sec*second,
          (order,sec*second) :: s.accepted⟩)
      else (.rejected (unauthorized "replayed_request"),
        ⟨(use s.items (sec*second) (nonceKey order) ttl.toInt).2,sec*second,s.accepted⟩) := by
  have hpath : isExcluded "/orders" ["/health","/metrics","/ready","/version"] = false := by
    have hprefixes : ∀ p ∈ ["/health","/metrics","/ready","/version"], trimSpace p = p := by
      intro p hp
      simp only [List.mem_cons,List.not_mem_nil,or_false] at hp
      apply trimSpace_of_all
      rcases hp with rfl | rfl | rfl | rfl <;> simp only [String.reduceToList] <;> rfl
    simp only [List.forall_mem_cons] at hprefixes
    simp [isExcluded,hprefixes,List.isPrefixOf]
  have hskip : (!(shopConfig ttl).enabled ||
      isExcluded (orderAt sec).req.path (shopConfig ttl).excludedPathPrefixes) = false := hpath
  rw [middleware,shopConfig_normalized httl,serve]
  simp only [hskip,verify_order ttl hlow hhigh]
  rfl

theorem use_order (items : Items) (now : Time) (ttl : Int) :
    use items now (nonceKey order) ttl =
      if (unexpired items now (nonceKey order)).any fun exp => now < exp then
        (false,unexpired items now)
      else (true,fun k => if k = nonceKey order then some (now+ttl) else unexpired items now k) := by
  have hkey : nonceKey order = "partner:n-1" := by simp [nonceKey,order]
  have htrim : trimSpace (nonceKey order) = nonceKey order := by
    apply trimSpace_of_all
    rw [hkey]
    simp only [String.reduceToList]
    rfl
  rw [use,if_neg (by rw [htrim,hkey]; simp)]

theorem use_fresh (clock now : Time) (ttl : Int) :
    use (freshState clock).items now (nonceKey order) ttl =
      (true,fun k => if k = nonceKey order then some (now+ttl) else none) := by
  simp [use_order,unexpired,freshState]

-- a second use sees the entry of the first as long as that has not expired
theorem use_again (now later : Time) (ttl : Int) :
    (use (fun k => if k = nonceKey order then some (now+ttl) else none) later (nonceKey order)
      ttl).1 = decide (now+ttl ≤ later) := by
  simp only [use_order,unexpired,if_true]
  split_ifs <;> grind

def twoOrders : List Arrival := [orderAt 1699999700,orderAt 1700000300]

theorem timely_twoOrders {ttl : Int64} (httl : ¬ ttl ≤ 0) :
    Along orderLibrary (shopConfig ttl) timely (freshState 0) twoOrders := by
  have hclock : (1699999700*second : Time) ≤ 1700000300*second := by decide
  refine ⟨⟨by decide,by decide⟩,⟨?_,by decide⟩,trivial⟩
  rw [middleware_order httl (by decide) (by decide)]
  split_ifs <;> exact hclock

-- the window is five minutes to each side and the nonce lives fifteen
theorem repeated_order_is_refused :
    (middleware orderLibrary (shopConfig 900000000000)
      (middleware orderLibrary (shopConfig 900000000000) (freshState 0) (orderAt 1699999700)).2
      (orderAt 1700000300)).1 = .rejected (unauthorized "replayed_request") ∧
    Along orderLibrary (shopConfig 900000000000)
      (acceptedOnce orderLibrary (shopConfig 900000000000)) (freshState 0) twoOrders := by
  have httl : ¬ (900000000000 : Int64) ≤ 0 := by decide
  refine ⟨?_,signed_requests_accepted_once orderLibrary (shopConfig 900000000000) rfl 0
    twoOrders (timely_twoOrders httl) ?_⟩
  · rw [middleware_order httl (by decide) (by decide),middleware_order httl (by decide) (by decide)]
    simp only [use_fresh,use_again,if_true]
    rfl
  · refine ⟨fun v _ => ⟨?_,by simp [freshState]⟩,fun v hv => ⟨?_,?_⟩,trivial⟩
    · rw [shopConfig_normalized httl]
      decide
    · rw [shopConfig_normalized httl]
      decide
    · rw [shopConfig_normalized httl,verify_order _ (by decide) (by decide),Except.ok.injEq] at hv
      rw [middleware_order httl (by decide) (by decide),← hv]
      simp only [use_fresh,if_true]
      simp [freshState]

-- with the default durations the copy arrives when the nonce expires and the window is still open
theorem order_is_accepted_twice :
    ¬ ∀ (lib : Library) (cfg : Config), cfg.requireNonce = true →
      ∀ (clock : Time) (arrivals : List Arrival), Along lib cfg timely (freshState clock) arrivals →
        Along lib cfg (acceptedOnce lib cfg) (freshState clock) arrivals := by
  intro h
  have httl : ¬ (600000000000 : Int64) ≤ 0 := by decide
  have hrun := h orderLibrary (shopConfig 600000000000) rfl 0 twoOrders (timely_twoOrders httl)
  have hsecond := hrun.2.1.1 order
  rw [middleware_order httl (by decide) (by decide),
    middleware_order httl (by decide) (by decide)] at hsecond
  simp only [use_fresh,use_again,if_true] at hsecond
  exact hsecond rfl (order,1699999700*second) List.mem_cons_self ⟨rfl,rfl,rfl⟩

end Nimburion.HTTP.Signature
