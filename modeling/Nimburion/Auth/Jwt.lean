import Nimburion.Errors
import Nimburion.Lib.GoText
import Nimburion.Lib.GoTime
import Mathlib.Data.List.Sort
import Mathlib.Data.String.Basic

namespace Nimburion.Auth
open GoText GoTime

-- strings.ToLower, known on ASCII text
structure Library where
  toLower : String → String
  toLower_ascii : ∀ s, (∀ c ∈ s.toList, c.toNat < 128) → toLower s = s.toLower

inductive Value where
  | null
  | bool (b : Bool)
  | number (text : String)
  | string (s : String)
  | strings (items : List String)
  | array (items : List Value)
  | object (fields : List (String × Value))

structure MapClaims where
  entries : List (String × Value)
  nodup : (entries.map Prod.fst).Nodup

def MapClaims.get (m : MapClaims) (key : String) : Option Value := m.entries.lookup key

-- the entries in the order one range loop visits them
structure Order (m : MapClaims) where
  entries : List (String × Value)
  perm : entries.Perm m.entries

abbrev Mappings := List (String × List String)

def Mappings.get (mappings : Mappings) (claim : String) : List String :=
  (mappings.lookup claim).getD []

def Mappings.set (mappings : Mappings) (claim : String) (aliases : List String) : Mappings :=
  (claim,aliases) :: mappings.filter fun p => p.1 ≠ claim

section Text

variable (lib : Library)

def nonblank (s : String) : Option String :=
  if trimSpace s ≠ "" then some (trimSpace s) else none

def dedupeFrom (seen : List String) : List String → List String
  | [] => []
  | value :: values =>
      let trimmed := trimSpace value
      if trimmed = "" then dedupeFrom seen values
      else if lib.toLower trimmed ∈ seen then dedupeFrom seen values
      else trimmed :: dedupeFrom (lib.toLower trimmed :: seen) values

def dedupeStrings (values : List String) : List String := dedupeFrom lib [] values

def withClaimMappings (given : Mappings) (mappings : Mappings) : Mappings :=
  given.foldl (fun mappings p =>
    if trimSpace p.1 = "" then mappings
    else mappings.set (trimSpace p.1) (dedupeStrings lib p.2)) mappings

def hasSuffix (s suffix : String) : Bool := suffix.toList.isSuffixOf s.toList

-- what follows the last slash that is not the last rune
def lastSegment (s : String) : String :=
  if '/' ∈ s.toList ∧ s.toList.getLast? ≠ some '/' then
    String.ofList (s.toList.reverse.takeWhile (· ≠ '/')).reverse
  else s

def suffixOf (raw : String) : Option String :=
  let normalized := lib.toLower (trimSpace raw)
  if normalized = "" then none
  else if trimSpace (lastSegment normalized) = "" then none
  else some ("/" ++ lastSegment normalized)

def claimSuffixes (claimName : String) (aliases : List String) : List String :=
  (((claimName :: aliases).filterMap (suffixOf lib)).dedup).insertionSort (· ≤ ·)

def claimCandidates (claimName : String) (aliases : List String) : List String :=
  dedupeStrings lib (claimName :: aliases.filterMap nonblank)

-- the runs of other runes between blanks
def parseRunes (current : List Char) : List Char → List String
  | [] => if current = [] then [] else [String.ofList current]
  | ch :: rest =>
      if ch = ' ' then
        if current = [] then parseRunes [] rest else String.ofList current :: parseRunes [] rest
      else parseRunes (current ++ [ch]) rest

def parseScopes (scope : String) : List String := parseRunes [] scope.toList

end Text

section Extraction

variable (lib : Library)

def Value.asString : Value → Option String
  | .string s => some s
  | _ => none

-- the value as a nonblank string, trimmed
def usable (value : Option Value) : Option String := (value.bind Value.asString).bind nonblank

def matchesSuffix (suffixes : List String) (key : String) : Bool :=
  suffixes.any fun suffix => hasSuffix (lib.toLower (trimSpace key)) suffix

def fromCandidates (m : MapClaims) (candidates : List String) : Option String :=
  candidates.findSome? fun candidate =>
    if trimSpace candidate = "" then none else usable (m.get (trimSpace candidate))

def extractClaimByMapping (m : MapClaims) (order : Order m) (claimName : String)
    (mappings : Mappings) : String :=
  let normalizedClaim := lib.toLower (trimSpace claimName)
  if normalizedClaim = "" then ""
  else
    let aliases := mappings.get normalizedClaim
    match fromCandidates m (normalizedClaim :: aliases) with
    | some value => value
    | none =>
        let suffixes := claimSuffixes lib normalizedClaim aliases
        if suffixes = [] then ""
        else (order.entries.findSome? fun p =>
          if matchesSuffix lib suffixes p.1 then usable (some p.2) else none).getD ""

-- what tryAppend appends
def Value.texts (splitOnSpaces : Bool) : Value → List String
  | .string s => if splitOnSpaces then parseScopes s else (nonblank s).toList
  | .strings items => items.filterMap nonblank
  | .array items => items.filterMap fun item => item.asString.bind nonblank
  | _ => []

def candidateTexts (m : MapClaims) (splitOnSpaces : Bool) (candidates : List String) :
    List String :=
  candidates.flatMap fun candidate => match m.get candidate with
    | some raw => raw.texts splitOnSpaces
    | none => []

def namespacedTexts (suffixes : List String) (splitOnSpaces : Bool) (p : String × Value) :
    List String :=
  if matchesSuffix lib suffixes p.1 then p.2.texts splitOnSpaces else []

def extractStringSliceByMapping (m : MapClaims) (order : Order m) (claimName : String)
    (mappings : Mappings) (splitOnSpaces : Bool) : List String :=
  let normalizedClaim := lib.toLower (trimSpace claimName)
  if normalizedClaim = "" then []
  else
    let aliases := mappings.get normalizedClaim
    dedupeStrings lib
      (candidateTexts m splitOnSpaces (claimCandidates lib normalizedClaim aliases) ++
        order.entries.flatMap
          (namespacedTexts lib (claimSuffixes lib normalizedClaim aliases) splitOnSpaces))

def addScope (scopes : List String) (value : String) : List String :=
  if trimSpace value = "" ∨ trimSpace value ∈ scopes then scopes else scopes ++ [trimSpace value]

def Value.permissions : Value → List String
  | .array items => items.filterMap Value.asString
  | .strings items => items
  | .string s => parseScopes s
  | _ => []

def namespacedPermissions (p : String × Value) : List String :=
  if hasSuffix (lib.toLower (trimSpace p.1)) "/permissions" then p.2.permissions else []

def plainPermissions (m : MapClaims) : List String :=
  match m.get "permissions" with
  | some value => value.permissions
  | none => []

def appendPermissionsAsScopes (scopes : List String) (m : MapClaims) (order : Order m) :
    List String :=
  (plainPermissions m ++ order.entries.flatMap (namespacedPermissions lib)).foldl addScope scopes

def isStandard (mappings : Mappings) (key : String) : Bool :=
  ["exp","iat","nbf","jti"].contains key || mappings.any fun p =>
    (lib.toLower (trimSpace p.1) ≠ "" && key = lib.toLower (trimSpace p.1)) ||
      (p.2.filterMap nonblank).contains key

def isNamespacedMappedClaimKey (mappings : Mappings) (key : String) : Bool :=
  lib.toLower (trimSpace key) ≠ "" && mappings.any fun p =>
    matchesSuffix lib (claimSuffixes lib (lib.toLower (trimSpace p.1)) p.2) key

-- ExpiresAt and IssuedAt are read by the JWT library
structure Claims where
  subject : String
  issuer : String
  audience : List String
  scopes : List String
  tenantID : String
  roles : List String
  custom : List (String × Value)

-- one order for each range loop
structure Orders (m : MapClaims) where
  subject : Order m
  issuer : Order m
  audience : Order m
  scopes : Order m
  permissions : Order m
  tenantID : Order m
  roles : Order m

def Orders.all {m : MapClaims} (o : Order m) : Orders m := ⟨o,o,o,o,o,o,o⟩

def extractClaims (mappings : Mappings) (m : MapClaims) (o : Orders m) : Claims where
  subject := extractClaimByMapping lib m o.subject "subject" mappings
  issuer := extractClaimByMapping lib m o.issuer "issuer" mappings
  audience := extractStringSliceByMapping lib m o.audience "audience" mappings false
  scopes := appendPermissionsAsScopes lib
    (extractStringSliceByMapping lib m o.scopes "scopes" mappings true) m o.permissions
  tenantID := extractClaimByMapping lib m o.tenantID "tenant_id" mappings
  roles := extractStringSliceByMapping lib m o.roles "roles" mappings true
  custom := m.entries.filter fun p =>
    !isStandard lib mappings p.1 && !isNamespacedMappedClaimKey lib mappings p.1

end Extraction

section Validation

variable (lib : Library)

structure JWKSValidator where
  issuer : String
  audience : String
  mappings : Mappings

def defaultMappings : Mappings :=
  [("subject",["sub"]),("issuer",["iss"]),("audience",["aud"]),("scopes",["scope","scopes"]),
    ("roles",["role","roles"]),("tenant_id",["tenant_id","tenantId"])]

def newJWKSValidator (issuer audience : String) (opts : List Mappings) : JWKSValidator :=
  ⟨issuer,audience,opts.foldl (fun mappings given => withClaimMappings lib given mappings)
    defaultMappings⟩

-- jwt.Parse answers an error or the token's validity and claims
def validate (v : JWKSValidator) (parsed : Except GoError (Bool × MapClaims))
    (orders : (m : MapClaims) → Orders m) : Except GoError Claims :=
  match parsed with
  | .error err => .error (.wrapped "token validation failed: " err)
  | .ok (valid,m) =>
      if valid = false then .error (.text "invalid token")
      else
        let claims := extractClaims lib v.mappings m (orders m)
        if claims.issuer ≠ v.issuer then
          .error (.text ("invalid issuer: expected " ++ v.issuer ++ ", got " ++ claims.issuer))
        else if v.audience ∉ claims.audience then
          .error (.text ("invalid audience: token not intended for " ++ v.audience))
        else .ok claims

end Validation

end Nimburion.Auth
