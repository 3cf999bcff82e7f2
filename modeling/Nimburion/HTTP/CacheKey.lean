import Nimburion.Errors
import Nimburion.Lib.GoText
import Nimburion.Lib.GoTime
import Nimburion.Lib.QueryEscape
import Mathlib.Data.List.Sort

namespace Nimburion.HTTP.Cache
open GoTime GoText QueryEscape

-- Go's case tables and crypto/sha256
structure Library where
  toUpper : String → String
  toLower : String → String
  sum256 : String → Fin 32 → UInt8

-- for texts in ASCII that are not hashed
def asciiLibrary : Library := ⟨String.toUpper,String.toLower,fun _ _ => 0⟩

inductive KeySource where
  | static
  | route
  | header
  | query
  | claim
  | tenant
  | subject
  | scopeHash
  | authFingerprint
  | other (text : String)
  deriving DecidableEq, Repr

def KeySource.text : KeySource → String
  | .static => "static"
  | .route => "route"
  | .header => "header"
  | .query => "query"
  | .claim => "claim"
  | .tenant => "tenant"
  | .subject => "subject"
  | .scopeHash => "scope_hash"
  | .authFingerprint => "auth_fingerprint"
  | .other text => text

structure KeyRule where
  source : KeySource
  key : String
  value : String
  name : String
  optional : Bool
  deriving DecidableEq, Repr

structure Config where
  enabled : Bool
  hasStore : Bool
  ttl : Duration
  staleWhileRevalidate : Duration
  public_ : Bool
  varyHeaders : List String
  bypassQueryParam : String
  keyPrefix : String
  keyRules : List KeyRule
  sensitive : Bool
  requireTenant : Bool
  requireAuthFingerprint : Bool
  deriving DecidableEq, Repr

-- a custom claim is given as fmt.Sprintf("%v") prints it
structure Claims where
  subject : String
  issuer : String
  tenantID : String
  scopes : List String
  roles : List String
  custom : String → Option String

inductive ClaimName where
  | subject
  | tenant
  | issuer
  | scopes
  | roles
  | custom
  deriving DecidableEq, Repr

structure Request where
  method : String
  path : String
  param : String → String
  header : String → String
  query : List (String × List String)
  claims : Option Claims

def Request.queryGet (r : Request) (key : String) : String :=
  ((r.query.lookup key).bind List.head?).getD ""

def checkRule (idx : ℕ) (rule : KeyRule) : Option GoError :=
  match rule.source with
  | .other text => some (.text ("cache key_rules[" ++ toString idx ++ "].source is invalid: " ++ text))
  | .static => if trimSpace rule.value = "" then
      some (.text ("cache key_rules[" ++ toString idx ++ "].value is required for source=static"))
    else none
  | .route | .header | .query | .claim => if trimSpace rule.key = "" then
      some (.text ("cache key_rules[" ++ toString idx ++ "].key is required for source=" ++
        rule.source.text))
    else none
  | _ => none

def checkRules (idx : ℕ) : List KeyRule → Option GoError
  | [] => none
  | rule :: rules => (checkRule idx rule).or (checkRules (idx+1) rules)

def validateConfig (cfg : Config) : Option GoError :=
  if !cfg.enabled then none
  else if !cfg.hasStore then
    some (.text "cache store is required when cache middleware is enabled")
  else if cfg.ttl ≤ 0 then some (.text "cache ttl must be greater than zero")
  else if cfg.staleWhileRevalidate < 0 then
    some (.text "cache stale_while_revalidate cannot be negative")
  else match checkRules 0 cfg.keyRules with
    | some e => some e
    | none =>
        if (cfg.sensitive || cfg.requireTenant) &&
            !(cfg.keyRules.any fun rule => rule.source = .tenant) then
          some (.text "cache sensitive route requires tenant key rule")
        else if (cfg.sensitive || cfg.requireAuthFingerprint) &&
            !(cfg.keyRules.any fun rule => rule.source = .subject || rule.source = .scopeHash ||
              rule.source = .authFingerprint || rule.source = .claim) then
          some (.text "cache sensitive route requires auth fingerprint key rule")
        else none

section Keys

variable (lib : Library)

def lowerHex (b : UInt8) : List Char := [hexDigit (b.toNat/16),hexDigit (b.toNat%16)]

-- hex.EncodeToString(sum[:8])
def digest (raw : String) : String :=
  String.ofList ((List.finRange 8).flatMap fun i => lowerHex (lib.sum256 raw (i.castLE (by decide))))

def scopeHash (scopes : List String) : String :=
  if scopes = [] then ""
  else digest lib (",".intercalate (scopes.insertionSort fun a b => a ≤ b))

def authFingerprint (claims : Claims) : String :=
  let raw := trim ("|".intercalate
    [trimSpace claims.subject,trimSpace claims.tenantID,scopeHash lib claims.scopes]) '|'
  if raw = "" then "" else digest lib raw

def claimName (key : String) : ClaimName :=
  match lib.toLower (trimSpace key) with
  | "sub" | "subject" => .subject
  | "tenant" | "tenant_id" | "tenantid" => .tenant
  | "iss" | "issuer" => .issuer
  | "scope" | "scopes" => .scopes
  | "roles" | "role" => .roles
  | _ => .custom

def claimValue (claims : Claims) (key : String) : String :=
  match claimName lib key with
  | .subject => claims.subject
  | .tenant => claims.tenantID
  | .issuer => claims.issuer
  | .scopes => " ".intercalate claims.scopes
  | .roles => ",".intercalate claims.roles
  | .custom => (claims.custom key).getD ""

def nonEmpty (value : String) : Option String := if value = "" then none else some value

def resolveRuleValue (r : Request) (rule : KeyRule) : Option String :=
  match rule.source with
  | .static => nonEmpty (trimSpace rule.value)
  | .route => nonEmpty (trimSpace (r.param rule.key))
  | .header => nonEmpty (trimSpace (r.header rule.key))
  | .query => nonEmpty (trimSpace (r.queryGet rule.key))
  | .claim => r.claims.bind fun claims => nonEmpty (trimSpace (claimValue lib claims rule.key))
  | .tenant => r.claims.bind fun claims => nonEmpty (trimSpace claims.tenantID)
  | .subject => r.claims.bind fun claims => nonEmpty (trimSpace claims.subject)
  | .scopeHash => r.claims.bind fun claims => nonEmpty (scopeHash lib claims.scopes)
  | .authFingerprint => r.claims.bind fun claims => nonEmpty (authFingerprint lib claims)
  | .other _ => none

def defaultRuleName (rule : KeyRule) : String :=
  match rule.source with
  | .route => "route." ++ rule.key
  | .header => "header." ++ lib.toLower rule.key
  | .query => "query." ++ rule.key
  | .claim => "claim." ++ rule.key
  | source => source.text

def ruleName (rule : KeyRule) : String :=
  if trimSpace rule.name = "" then defaultRuleName lib rule else trimSpace rule.name

-- url.Values.Encode
def canonicalQuery (values : List (String × List String)) : String :=
  "&".intercalate ((values.insertionSort fun a b => a.1 ≤ b.1).flatMap fun entry =>
    entry.2.map fun value => queryEscape entry.1 ++ "=" ++ queryEscape value)

def ruleParts (r : Request) : List KeyRule → Except GoError (List String)
  | [] => .ok []
  | rule :: rules => match resolveRuleValue lib r rule with
      | none =>
          if rule.optional then ruleParts r rules
          else .error (.text ("missing required cache key rule for source=" ++ rule.source.text ++
            " key=" ++ rule.key))
      | some value => (ruleParts r rules).map fun parts =>
          (ruleName lib rule ++ "=" ++ queryEscape value) :: parts

def buildCacheKey (r : Request) (cfg : Config) : Except GoError String :=
  if cfg.keyRules = [] then
    .ok (cfg.keyPrefix ++ ":" ++ r.method ++ ":" ++ r.path ++ ":" ++ canonicalQuery r.query)
  else (ruleParts lib r cfg.keyRules).map fun parts => ":".intercalate
    (cfg.keyPrefix :: ("method=" ++ lib.toUpper r.method) :: ("path=" ++ r.path) :: parts)

end Keys

end Nimburion.HTTP.Cache
