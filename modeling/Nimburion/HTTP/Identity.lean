import Nimburion.Auth.Jwt
import Nimburion.HTTP.CacheEntry
import Nimburion.Lib.ByteText

namespace Nimburion.HTTP.Identity
open GoText Auth
open HTTP.Cache (Header)

-- claims of a validated token: a Go map has each key once
structure Authenticated where
  claims : Claims
  nodup : (claims.custom.map Prod.fst).Nodup

def Authenticated.custom (a : Authenticated) : MapClaims := ⟨a.claims.custom,a.nodup⟩

structure Tenant where
  id : String
  subject : String
  deriving DecidableEq, Repr

structure Request where
  header : Header
  param : String → String
  query : String → String
  claims : Option Authenticated
  tenant : Option Tenant

inductive Answer where
  | error (status : ℕ) (text : String)
  | insufficient (requiredScopes : List String) (logic : String)
  deriving DecidableEq, Repr

-- a middleware answers the request itself or hands it on
abbrev Middleware := Request → Except Answer Request

def validHeaderFieldByte (c : Char) : Bool :=
  c.isAlphanum || "!#$%&'*+-.^_`|~".toList.contains c

def canonicalLetters (upper : Bool) : List Char → List Char
  | [] => []
  | c :: cs => (if upper then c.toUpper else c.toLower) :: canonicalLetters (c = '-') cs

-- a name with a byte that no header name may have is left as it is
def canonicalMIMEHeaderKey (name : String) : String :=
  if name.toList.all validHeaderFieldByte then String.ofList (canonicalLetters true name.toList)
  else name

def setClaims (claims : Authenticated) (r : Request) : Request :=
  { r with
    claims := some claims
    tenant := if trimSpace claims.claims.tenantID ≠ "" then
        some ⟨claims.claims.tenantID,claims.claims.subject⟩ else r.tenant }

variable (validate : String → Except GoError Authenticated)

def authenticate : Middleware := fun r =>
  let authHeader := r.header.get "Authorization"
  if authHeader = "" then .error (.error 401 "missing authorization header")
  else match split authHeader ' ' with
    | [scheme,token] =>
        if scheme ≠ "Bearer" then .error (.error 401 "invalid authorization header format")
        else match validate token with
          | .error _ => .error (.error 401 "invalid token")
          | .ok claims => .ok (setClaims claims r)
    | _ => .error (.error 401 "invalid authorization header format")

structure IdentityHeaderConfig where
  tenantHeader : String
  subjectHeader : String
  scopesHeader : String
  rolesHeader : String
  deriving DecidableEq, Repr

def named (name fallback : String) : String := if trimSpace name = "" then fallback else name

def IdentityHeaderConfig.normalize (cfg : IdentityHeaderConfig) : IdentityHeaderConfig :=
  ⟨named cfg.tenantHeader "X-Tenant-ID",named cfg.subjectHeader "X-Subject-ID",
    named cfg.scopesHeader "X-Scopes",named cfg.rolesHeader "X-Roles"⟩

def joined (sep : String) (values : List String) : Option String :=
  if values = [] then none else some (sep.intercalate values)

def present (value : String) : Option String := if trimSpace value = "" then none else some value

-- what the token says for each header; where it says nothing the header is not written
def asserted (cfg : IdentityHeaderConfig) (claims : Claims) : List (String × Option String) :=
  [(cfg.tenantHeader,present claims.tenantID),(cfg.subjectHeader,present claims.subject),
    (cfg.scopesHeader,joined " " claims.scopes),(cfg.rolesHeader,joined "," claims.roles)]

def writeIdentity (h : Header) (entry : String × Option String) : Header :=
  match entry.2 with
  | some value => h.set (canonicalMIMEHeaderKey entry.1) value
  | none => h

def forwardIdentityHeaders (cfg : IdentityHeaderConfig) : Middleware := fun r =>
  match r.claims with
  | none => .error (.error 401 "missing authentication")
  | some claims => .ok { r with
      header := (asserted cfg.normalize claims.claims).foldl writeIdentity r.header }

section Bearer

theorem splitOn_eq_pair {xs a b : List Char} {sep : Char} (h : xs.splitOn sep = [a,b]) :
    xs = a ++ sep :: b ∧ sep ∉ b := by
  have hjoin : [sep].intercalate (xs.splitOn sep) = xs := List.intercalate_splitOn sep
  rw [h] at hjoin
  refine ⟨by simpa using hjoin.symm,fun hmem => ?_⟩
  have hpart : b ∈ xs.splitOnP (· == sep) := by
    rw [← List.splitOn_eq_splitOnP,h]
    exact List.mem_cons_of_mem _ List.mem_cons_self
  simpa using (ByteText.mem_splitOnP hpart sep hmem).2

theorem split_bearer {s token : String} (h : split s ' ' = ["Bearer",token]) :
    s = "Bearer " ++ token ∧ ' ' ∉ token.toList := by
  unfold split at h
  obtain ⟨scheme,rest,hparts,hscheme,hrest⟩ := List.map_eq_cons_iff.mp h
  obtain ⟨last,none,hlast,htoken,hnone⟩ := List.map_eq_cons_iff.mp hrest
  rw [List.map_eq_nil_iff] at hnone
  subst hlast hnone htoken
  obtain ⟨hchars,hspace⟩ := splitOn_eq_pair hparts
  have hlist : scheme = "Bearer".toList := by rw [← hscheme,String.toList_ofList]
  rw [String.toList_ofList]
  refine ⟨String.toList_inj.mp ?_,hspace⟩
  rw [hchars,hlist,String.toList_append]
  simp

theorem split_bearer_token {token : String} (h : ' ' ∉ token.toList) :
    split ("Bearer " ++ token) ' ' = ["Bearer",token] := by
  have hchars : ("Bearer " ++ token).toList = "Bearer".toList ++ ' ' :: token.toList := by
    rw [String.toList_append]
    rfl
  rw [split,hchars,List.splitOn_append_cons_self_of_not_mem (by decide),List.splitOn_eq_singleton h]
  simp

theorem authenticate_eq_ok_iff {r r' : Request} :
    authenticate validate r = .ok r' ↔ ∃ token claims, ' ' ∉ token.toList ∧
      r.header.get "Authorization" = "Bearer " ++ token ∧ validate token = .ok claims ∧
      r' = setClaims claims r := by
  constructor
  · intro h
    unfold authenticate at h
    simp only at h
    split at h
    · cases h
    · split at h
      · next scheme token hsplit =>
        split at h
        · cases h
        · next hscheme =>
          rw [not_not.mp hscheme] at hsplit
          obtain ⟨hheader,hspace⟩ := split_bearer hsplit
          cases hvalid : validate token with
          | error err =>
            rw [hvalid] at h
            cases h
          | ok claims =>
            rw [hvalid] at h
            cases h
            exact ⟨token,claims,hspace,hheader,hvalid,rfl⟩
      · cases h
  · rintro ⟨token,claims,hspace,hheader,hvalid,rfl⟩
    have hne : "Bearer " ++ token ≠ "" := by simp
    simp only [authenticate,hheader,hne,split_bearer_token hspace,hvalid,↓reduceIte,ne_eq,not_true]

end Bearer

section Headers

-- the values that go upstream are what the token says and no other, none where it says nothing
def Authentic (cfg : IdentityHeaderConfig) (claims : Claims) (h : Header) : Prop :=
  ∀ entry ∈ asserted cfg.normalize claims,
    h.values (canonicalMIMEHeaderKey entry.1) = entry.2.toList

def HeaderNames (cfg : IdentityHeaderConfig) : List String :=
  [cfg.normalize.tenantHeader,cfg.normalize.subjectHeader,cfg.normalize.scopesHeader,
    cfg.normalize.rolesHeader].map canonicalMIMEHeaderKey

theorem values_writeIdentity_of_ne (h : Header) {entry : String × Option String} {name : String}
    (hne : name ≠ canonicalMIMEHeaderKey entry.1) :
    (writeIdentity h entry).values name = h.values name := by
  unfold writeIdentity
  cases entry.2 with
  | none => rfl
  | some value => rw [Header.values,Header.lookup_set_of_ne h value hne,Header.values]

-- a silent token leaves the client's values where they are
def upstream (sent : List String) : Option String → List String
  | some value => [value]
  | none => sent

theorem values_writeIdentity_self (h : Header) (entry : String × Option String) :
    (writeIdentity h entry).values (canonicalMIMEHeaderKey entry.1) =
      upstream (h.values (canonicalMIMEHeaderKey entry.1)) entry.2 := by
  unfold writeIdentity
  cases entry.2 with
  | none => rfl
  | some value =>
    rw [Header.values,Header.lookup_set_self]
    rfl

theorem values_foldl_writeIdentity_of_notMem {entries : List (String × Option String)} {name : String}
    (h : Header) (hname : name ∉ entries.map fun entry => canonicalMIMEHeaderKey entry.1) :
    (entries.foldl writeIdentity h).values name = h.values name := by
  induction entries generalizing h with
  | nil => rfl
  | cons entry entries ih =>
    rw [List.map_cons,List.mem_cons,not_or] at hname
    rw [List.foldl_cons,ih (writeIdentity h entry) hname.2,values_writeIdentity_of_ne h hname.1]

theorem values_foldl_writeIdentity {entries : List (String × Option String)} (h : Header)
    (hnames : (entries.map fun entry => canonicalMIMEHeaderKey entry.1).Nodup)
    {entry : String × Option String} (hentry : entry ∈ entries) :
    (entries.foldl writeIdentity h).values (canonicalMIMEHeaderKey entry.1) =
      upstream (h.values (canonicalMIMEHeaderKey entry.1)) entry.2 := by
  induction entries generalizing h with
  | nil => cases hentry
  | cons first entries ih =>
    rw [List.map_cons,List.nodup_cons] at hnames
    rw [List.foldl_cons]
    rcases List.mem_cons.mp hentry with rfl | hrest
    · rw [values_foldl_writeIdentity_of_notMem _ hnames.1,values_writeIdentity_self]
    · have hne : canonicalMIMEHeaderKey entry.1 ≠ canonicalMIMEHeaderKey first.1 := fun heq =>
        hnames.1 (heq ▸ List.mem_map.mpr ⟨entry,hrest,rfl⟩)
      rw [ih (writeIdentity h first) hnames.2 hrest,values_writeIdentity_of_ne h hne]

theorem upstream_eq_iff (value : Option String) (sent : List String) :
    upstream sent value = value.toList ↔ (value = none → sent = []) := by
  cases value <;> simp [upstream]

end Headers

theorem identity_headers_authentic_iff (cfg : IdentityHeaderConfig)
    (hnames : (HeaderNames cfg).Nodup) (r r' : Request)
    (hpassed : (authenticate validate r >>= forwardIdentityHeaders cfg) = .ok r') :
    ∃ token claims, r.header.get "Authorization" = "Bearer " ++ token ∧
      validate token = .ok claims ∧ r'.claims = some claims ∧
      (Authentic cfg claims.claims r'.header ↔
        ∀ entry ∈ asserted cfg.normalize claims.claims, entry.2 = none →
          r.header.values (canonicalMIMEHeaderKey entry.1) = []) ∧
      ∀ entry ∈ asserted cfg.normalize claims.claims, entry.2 = none →
        r'.header.values (canonicalMIMEHeaderKey entry.1) =
          r.header.values (canonicalMIMEHeaderKey entry.1) := by
  cases hauth : authenticate validate r with
  | error answer =>
    rw [hauth] at hpassed
    cases hpassed
  | ok r₁ =>
    obtain ⟨token,claims,-,hheader,hvalid,rfl⟩ := (authenticate_eq_ok_iff validate).mp hauth
    rw [hauth] at hpassed
    cases hpassed
    have hentries : ((asserted cfg.normalize claims.claims).map fun entry =>
        canonicalMIMEHeaderKey entry.1).Nodup := hnames
    refine ⟨token,claims,hheader,hvalid,rfl,?_,?_⟩
    · unfold Authentic
      refine forall_congr' fun entry => forall_congr' fun hentry => ?_
      rw [values_foldl_writeIdentity _ hentries hentry,upstream_eq_iff]
      rfl
    · intro entry hentry hsilent
      rw [values_foldl_writeIdentity _ hentries hentry,hsilent]
      rfl

def serviceClaims : Authenticated := ⟨⟨"svc-1","https://id.example",[],["read"],"",[],[]⟩,List.nodup_nil⟩

def spoofing : Request :=
  ⟨[("Authorization",["Bearer t1"]),("X-Tenant-Id",["","acme"])],fun _ => "",fun _ => "",none,none⟩

theorem spoofed_tenant_not_authentic :
    ∃ r', (authenticate (fun _ => .ok serviceClaims) spoofing >>=
        forwardIdentityHeaders ⟨"","","",""⟩) = .ok r' ∧
      r'.header.values "X-Tenant-Id" = ["","acme"] ∧
      ¬ Authentic ⟨"","","",""⟩ serviceClaims.claims r'.header := by
  refine ⟨_,rfl,by decide +kernel,fun hauthentic => ?_⟩
  obtain ⟨token,claims,-,hvalid,-,hiff,-⟩ := identity_headers_authentic_iff
    (fun _ => .ok serviceClaims) ⟨"","","",""⟩ (by decide +kernel) spoofing _ rfl
  cases hvalid
  exact absurd (hiff.mp hauthentic ("X-Tenant-ID",none) (by decide +kernel) rfl) (by decide +kernel)

end Nimburion.HTTP.Identity
