import Nimburion.HTTP.CacheEntry

namespace Nimburion.HTTP.Cors
open GoTime GoText
open HTTP.Cache (Header)

-- `parses` is whether url.Parse succeeds
structure Library where
  toUpper : String → String
  toLower : String → String
  equalFold : String → String → Bool
  parses : String → Bool
  toLower_empty : toLower "" = ""

-- without origin functions; a nil slice and an empty one differ for AllowMethods only
structure Config where
  enabled : Bool
  allowAllOrigins : Bool
  allowOrigins : List String
  allowMethods : Option (List String)
  allowPrivateNetwork : Bool
  allowHeaders : List String
  allowCredentials : Bool
  exposeHeaders : List String
  maxAge : Duration
  allowWildcard : Bool
  allowBrowserExtensions : Bool
  customSchemas : List String
  allowWebSockets : Bool
  allowFiles : Bool
  optionsResponseStatusCode : Int
  deriving DecidableEq, Repr

def defaultConfig : Config :=
  { enabled := false, allowAllOrigins := false, allowOrigins := [],
    allowMethods := some ["GET","POST","PUT","PATCH","DELETE","HEAD","OPTIONS"],
    allowPrivateNetwork := false, allowHeaders := [], allowCredentials := false,
    exposeHeaders := [], maxAge := 43200*second, allowWildcard := false,
    allowBrowserExtensions := false, customSchemas := [], allowWebSockets := false,
    allowFiles := false, optionsResponseStatusCode := 204 }

structure Request where
  method : String
  header : Header

def origin (req : Request) : String := req.header.get "Origin"

def isPreflight (req : Request) : Bool :=
  req.method = "OPTIONS" && req.header.get "Access-Control-Request-Method" ≠ ""

section Middleware

variable (lib : Library)

def normalize (cfg : Config) : Config :=
  { cfg with
    allowMethods := some ((cfg.allowMethods.getD (defaultConfig.allowMethods.getD [])).map
      fun s => lib.toUpper (trimSpace s))
    allowOrigins := cfg.allowOrigins.map trimSpace
    allowHeaders := cfg.allowHeaders.map trimSpace
    exposeHeaders := cfg.exposeHeaders.map trimSpace
    customSchemas := cfg.customSchemas.map fun s => lib.toLower (trimSpace s)
    optionsResponseStatusCode := if cfg.optionsResponseStatusCode = 0 then
      defaultConfig.optionsResponseStatusCode else cfg.optionsResponseStatusCode
    maxAge := if cfg.maxAge = 0 then defaultConfig.maxAge else cfg.maxAge
    allowCredentials := if cfg.allowAllOrigins then false else cfg.allowCredentials }

def isLetter (c : Char) : Bool := ('a' ≤ c && c ≤ 'z') || ('A' ≤ c && c ≤ 'Z')

-- url.getScheme; `seen` is what stands before the rest, last character first
def getScheme (seen : List Char) : List Char → List Char
  | [] => []
  | c :: cs =>
      if isLetter c then getScheme (c :: seen) cs
      else if c.isDigit || c = '+' || c = '-' || c = '.' then
        if seen = [] then [] else getScheme (c :: seen) cs
      else if c = ':' then seen.reverse
      else []

def isSchemaAllowed (cfg : Config) (origin : String) : Bool :=
  let scheme := lib.toLower (trimSpace (lib.toLower (String.ofList (getScheme [] origin.toList))))
  lib.parses origin && scheme ≠ "" &&
    (["http","https"].contains scheme ||
      (cfg.allowWebSockets && ["ws","wss"].contains scheme) ||
      (cfg.allowFiles && scheme = "file") ||
      (cfg.allowBrowserExtensions && ["chrome-extension","moz-extension","safari-web-extension",
        "ms-browser-extension"].contains scheme) ||
      (cfg.customSchemas.filter (· ≠ "")).contains scheme)

def wildcardMatch (pattern value : String) : Bool :=
  if pattern = "" || !pattern.toList.contains '*' then false
  else if pattern.toList.count '*' ≠ 1 then false
  else (cut pattern '*').any fun parts =>
    parts.1.toList.isPrefixOf value.toList && parts.2.toList.isSuffixOf value.toList

def admits (cfg : Config) (origin allowed : String) : Bool :=
  allowed = "*" || lib.equalFold allowed origin || (cfg.allowWildcard && wildcardMatch allowed origin)

def isOriginAllowed (cfg : Config) (origin : String) : Bool :=
  if cfg.allowAllOrigins then isSchemaAllowed lib cfg origin
  else if cfg.allowOrigins.length = 0 then false
  else if isSchemaAllowed lib cfg origin = false then false
  else cfg.allowOrigins.any (admits lib cfg origin)

def isAllowAllOriginsList (cfg : Config) : Bool := cfg.allowOrigins.any fun s => trimSpace s = "*"

def setOriginHeaders (cfg : Config) (h : Header) (origin : String) : Header :=
  if cfg.allowCredentials then
    (h.set "Access-Control-Allow-Origin" origin).set "Access-Control-Allow-Credentials" "true"
  else if cfg.allowAllOrigins || isAllowAllOriginsList cfg then
    h.set "Access-Control-Allow-Origin" "*"
  else h.set "Access-Control-Allow-Origin" origin

def appendVary (h : Header) (value : String) : Header :=
  let current := h.get "Vary"
  if current = "" then h.set "Vary" value
  else if (split current ',').any fun part => lib.equalFold (trimSpace part) value then h
  else h.set "Vary" (current ++ ", " ++ value)

def applyVary (h : Header) : Header :=
  ["Origin","Access-Control-Request-Method","Access-Control-Request-Headers"].foldl (appendVary lib) h

def formatMaxAge (duration : Duration) : String :=
  if duration.tdiv second < 0 then "0" else toString (duration.tdiv second)

-- the response so far; `status` is written when the middleware answers by itself
structure Reply where
  header : Header
  status : Option Int
  passedOn : Bool
  deriving DecidableEq, Repr

def setIf (c : Bool) (key value : String) (h : Header) : Header := if c then h.set key value else h

def preflightHeaders (cfg : Config) (req : Request) (h : Header) : Header :=
  let requested := req.header.get "Access-Control-Request-Headers"
  let h := h.set "Access-Control-Allow-Methods" (", ".intercalate (cfg.allowMethods.getD []))
  let h :=
    if 0 < cfg.allowHeaders.length then
      h.set "Access-Control-Allow-Headers" (", ".intercalate cfg.allowHeaders)
    else setIf (requested ≠ "") "Access-Control-Allow-Headers" requested h
  let h := setIf (0 < cfg.maxAge) "Access-Control-Max-Age" (formatMaxAge cfg.maxAge) h
  setIf (cfg.allowPrivateNetwork &&
    lib.equalFold (req.header.get "Access-Control-Request-Private-Network") "true")
    "Access-Control-Allow-Private-Network" "true" h

def serve (cfg : Config) (req : Request) (h : Header) : Reply :=
  if cfg.enabled = false ∨ origin req = "" then ⟨h,none,true⟩
  else if isOriginAllowed lib cfg (origin req) = false then
    if isPreflight req then ⟨h,some 403,false⟩ else ⟨h,none,true⟩
  else
    let h := setOriginHeaders cfg (applyVary lib h) (origin req)
    let h := setIf (0 < cfg.exposeHeaders.length) "Access-Control-Expose-Headers"
      (", ".intercalate cfg.exposeHeaders) h
    if isPreflight req then
      ⟨preflightHeaders lib cfg req h,some cfg.optionsResponseStatusCode,false⟩
    else ⟨h,none,true⟩

def middleware (cfg : Config) : Request → Header → Reply := serve lib (normalize lib cfg)

end Middleware

section Credentials

variable (lib : Library) (cfg : Config) (req : Request) (h : Header)

-- what the middleware itself answers
def answer : Header :=
  (middleware lib cfg req ((h.del "Access-Control-Allow-Origin").del
    "Access-Control-Allow-Credentials")).header

def grantsCredentials : Prop :=
  (answer lib cfg req h).get "Access-Control-Allow-Credentials" = "true"

def listsOrigin : Prop :=
  ∃ e ∈ (normalize lib cfg).allowOrigins, e ≠ "*" ∧ (lib.equalFold e (origin req) = true ∨
    cfg.allowWildcard = true ∧ ∃ p m s : String, e = p ++ "*" ++ s ∧ origin req = p ++ m ++ s)

def credentialsSafe : Prop :=
  (grantsCredentials lib cfg req h → listsOrigin lib cfg req) ∧
    ¬ (grantsCredentials lib cfg req h ∧
      (answer lib cfg req h).get "Access-Control-Allow-Origin" = "*")

-- the entry "*", or a wildcard entry that matches though it has more characters beside its "*"
-- than the origin
def looselyListed : Bool :=
  (normalize lib cfg).allowOrigins.any fun e => e = "*" ||
    (cfg.allowWildcard && wildcardMatch e (origin req) && (origin req).length+1 < e.length)

def asksCredentials : Bool :=
  cfg.enabled && cfg.allowCredentials && !cfg.allowAllOrigins && origin req ≠ "" &&
    isSchemaAllowed lib (normalize lib cfg) (origin req)

end Credentials

section Headers

variable {lib : Library} {cfg : Config} {req : Request} {h : Header} {key : String}

theorem get_setIf_of_ne (c : Bool) {key' : String} (value : String) (hne : key ≠ key') :
    (setIf c key' value h).get key = h.get key := by
  unfold setIf
  split_ifs
  · exact h.get_set_of_ne value hne
  · rfl

theorem get_appendVary_of_ne (value : String) (hne : key ≠ "Vary") :
    (appendVary lib h value).get key = h.get key := by
  unfold appendVary
  dsimp only
  split_ifs
  · exact h.get_set_of_ne _ hne
  · rfl
  · exact h.get_set_of_ne _ hne

theorem get_applyVary_of_ne (hne : key ≠ "Vary") : (applyVary lib h).get key = h.get key := by
  simp only [applyVary,List.foldl_cons,List.foldl_nil,get_appendVary_of_ne _ hne]

-- the two headers that say who may read the answer
def Answers (key : String) : Prop :=
  key = "Access-Control-Allow-Credentials" ∨ key = "Access-Control-Allow-Origin"

theorem get_preflightHeaders (hkey : Answers key) :
    (preflightHeaders lib cfg req h).get key = h.get key := by
  have hmethods : key ≠ "Access-Control-Allow-Methods" := by rcases hkey with rfl | rfl <;> decide
  have hheaders : key ≠ "Access-Control-Allow-Headers" := by rcases hkey with rfl | rfl <;> decide
  have hage : key ≠ "Access-Control-Max-Age" := by rcases hkey with rfl | rfl <;> decide
  have hnetwork : key ≠ "Access-Control-Allow-Private-Network" := by
    rcases hkey with rfl | rfl <;> decide
  unfold preflightHeaders
  dsimp only
  rw [get_setIf_of_ne _ _ hnetwork,get_setIf_of_ne _ _ hage]
  split_ifs
  · rw [Header.get_set_of_ne _ _ hheaders,Header.get_set_of_ne _ _ hmethods]
  · rw [get_setIf_of_ne _ _ hheaders,Header.get_set_of_ne _ _ hmethods]

theorem get_serve (hkey : Answers key) : (serve lib cfg req h).header.get key =
    if cfg.enabled = true ∧ origin req ≠ "" ∧ isOriginAllowed lib cfg (origin req) = true then
      (setOriginHeaders cfg (applyVary lib h) (origin req)).get key
    else h.get key := by
  have hexpose : key ≠ "Access-Control-Expose-Headers" := by rcases hkey with rfl | rfl <;> decide
  by_cases hoff : cfg.enabled = false ∨ origin req = ""
  · have hnot : ¬ (cfg.enabled = true ∧ origin req ≠ "" ∧
        isOriginAllowed lib cfg (origin req) = true) := by
      rcases hoff with hoff | hoff <;> simp [hoff]
    rw [serve,if_pos hoff,if_neg hnot]
  · rw [serve,if_neg hoff]
    rw [not_or,Bool.not_eq_false] at hoff
    cases hallowed : isOriginAllowed lib cfg (origin req) with
    | false =>
      simp only [if_true,Bool.false_eq_true,and_false,if_false]
      split_ifs <;> rfl
    | true =>
      simp only [hoff,ne_eq,not_false_eq_true,and_self,if_true,Bool.true_eq_false,if_false]
      split_ifs
      · rw [get_preflightHeaders hkey,get_setIf_of_ne _ _ hexpose]
      · rw [get_setIf_of_ne _ _ hexpose]

theorem get_credentials : (setOriginHeaders cfg h (origin req)).get "Access-Control-Allow-Credentials" =
    if cfg.allowCredentials then "true" else h.get "Access-Control-Allow-Credentials" := by
  unfold setOriginHeaders
  split_ifs
  · exact Header.get_set_self _ _ _
  · exact h.get_set_of_ne _ (by decide)
  · exact h.get_set_of_ne _ (by decide)

theorem get_origin_of_credentials (hcred : cfg.allowCredentials = true) :
    (setOriginHeaders cfg h (origin req)).get "Access-Control-Allow-Origin" = origin req := by
  rw [setOriginHeaders,if_pos hcred,Header.get_set_of_ne _ _ (by decide)]
  exact Header.get_set_self _ _ _

end Headers

section Matching

variable {lib : Library} {cfg : Config} {o e : String}

theorem wildcardMatch_spec (hmatch : wildcardMatch e o = true) :
    ∃ p s : String, e = p ++ "*" ++ s ∧ p.toList <+: o.toList ∧ s.toList <:+ o.toList := by
  unfold wildcardMatch at hmatch
  split_ifs at hmatch
  obtain ⟨⟨p,s⟩,hcut,hparts⟩ := (Option.any_eq_true _ _).mp hmatch
  rw [Bool.and_eq_true,List.isPrefixOf_iff_prefix,List.isSuffixOf_iff_suffix] at hparts
  exact ⟨p,s,(cut_eq_some_iff.mp hcut).1,hparts⟩

theorem append_of_fits {p s : String} (hp : p.toList <+: o.toList) (hs : s.toList <:+ o.toList)
    (hfits : p.length+s.length ≤ o.length) : ∃ m : String, o = p ++ m ++ s := by
  obtain ⟨l,hl⟩ := hp
  obtain ⟨r,hr⟩ := hs
  have hsame : p.toList ++ l = r ++ s.toList := hl.trans hr.symm
  rcases List.append_eq_append_iff.mp hsame with ⟨m,hm,_⟩ | ⟨m,hm,hms⟩
  · refine ⟨String.ofList m,String.toList_inj.mp ?_⟩
    rw [← hr,hm]
    simp
  · have hnil : m = [] := by
      have hlen := congrArg List.length hr
      have hlen' := congrArg List.length hm
      simp only [List.length_append,String.length_toList] at hlen hlen'
      exact List.length_eq_zero_iff.mp (by omega)
    refine ⟨"",String.toList_inj.mp ?_⟩
    rw [← hr,String.toList_append,String.toList_append,hm,hnil]
    simp

theorem listed_of_wildcardMatch (hmatch : wildcardMatch e o = true)
    (hfits : ¬ o.length+1 < e.length) : ∃ p m s : String, e = p ++ "*" ++ s ∧ o = p ++ m ++ s := by
  obtain ⟨p,s,he,hp,hs⟩ := wildcardMatch_spec hmatch
  have hlen : e.length = p.length+1+s.length := by
    rw [he,String.length_append,String.length_append]
    rfl
  obtain ⟨m,hm⟩ := append_of_fits hp hs (by omega)
  exact ⟨p,m,s,he,hm⟩

theorem schema_of_star (hstar : isSchemaAllowed lib cfg "*" = true) : False := by
  have hscheme : String.ofList (getScheme [] "*".toList) = "" := by decide
  have htrim : trimSpace "" = "" := (trimSpace_eq_empty_iff "").mpr (by simp)
  unfold isSchemaAllowed at hstar
  dsimp only at hstar
  rw [hscheme,lib.toLower_empty,htrim,lib.toLower_empty] at hstar
  simp at hstar

end Matching

section Grants

variable (lib : Library) (cfg : Config) (req : Request) (h : Header)

theorem normalize_credentials : (normalize lib cfg).allowCredentials = true ↔
    cfg.allowCredentials = true ∧ cfg.allowAllOrigins = false := by
  cases hall : cfg.allowAllOrigins <;> simp [normalize,hall]

theorem allowed_iff (hall : cfg.allowAllOrigins = false) :
    isOriginAllowed lib (normalize lib cfg) (origin req) = true ↔
      isSchemaAllowed lib (normalize lib cfg) (origin req) = true ∧
        (normalize lib cfg).allowOrigins.any (admits lib (normalize lib cfg) (origin req)) = true := by
  have hall' : (normalize lib cfg).allowAllOrigins = false := hall
  rw [isOriginAllowed,hall',if_neg (by decide)]
  split_ifs with hempty hschema
  · simp [List.length_eq_zero_iff.mp hempty]
  · simp [hschema]
  · simp [hschema]

theorem grantsCredentials_iff : grantsCredentials lib cfg req h ↔
    asksCredentials lib cfg req = true ∧
      (normalize lib cfg).allowOrigins.any (admits lib (normalize lib cfg) (origin req)) = true := by
  unfold grantsCredentials answer middleware
  rw [get_serve (.inl rfl),get_credentials,get_applyVary_of_ne (by decide),Header.get_del_self]
  by_cases hcred : (normalize lib cfg).allowCredentials = true
  · obtain ⟨hwants,hall⟩ := (normalize_credentials lib cfg).mp hcred
    have hon : (normalize lib cfg).enabled = cfg.enabled := rfl
    have hite : ∀ c : Prop, ∀ [Decidable c], (if c then "true" else "") = "true" ↔ c := by
      intro c _
      split_ifs with hc <;> simp [hc]
    rw [if_pos hcred,hite,allowed_iff lib cfg req hall]
    simp [asksCredentials,hwants,hall,hon,and_assoc]
  · have hnot : asksCredentials lib cfg req = false := by
      rw [normalize_credentials,not_and,Bool.not_eq_false] at hcred
      cases hwants : cfg.allowCredentials with
      | false => simp [asksCredentials,hwants]
      | true => simp [asksCredentials,hcred hwants]
    simp [hcred,hnot]

theorem origin_ne_star (hgrants : grantsCredentials lib cfg req h) :
    (answer lib cfg req h).get "Access-Control-Allow-Origin" ≠ "*" := by
  obtain ⟨hasks,hany⟩ := (grantsCredentials_iff lib cfg req h).mp hgrants
  simp only [asksCredentials,Bool.and_eq_true,Bool.not_eq_true',decide_eq_true_eq] at hasks
  obtain ⟨⟨⟨⟨hon,hwants⟩,hall⟩,hne⟩,hschema⟩ := hasks
  have hcred := (normalize_credentials lib cfg).mpr ⟨hwants,hall⟩
  have hallowed := (allowed_iff lib cfg req hall).mpr ⟨hschema,hany⟩
  have hon' : (normalize lib cfg).enabled = true := hon
  rw [answer,middleware,get_serve (.inr rfl),if_pos ⟨hon',hne,hallowed⟩,
    get_origin_of_credentials hcred]
  intro hstar
  rw [hstar] at hschema
  exact schema_of_star hschema

theorem admits_of_loose {e : String} (hloose : (e = "*" || (cfg.allowWildcard &&
      wildcardMatch e (origin req) && (origin req).length+1 < e.length)) = true) :
    admits lib (normalize lib cfg) (origin req) e = true := by
  have hwild : (normalize lib cfg).allowWildcard = cfg.allowWildcard := rfl
  simp only [Bool.or_eq_true,Bool.and_eq_true,decide_eq_true_eq] at hloose
  rcases hloose with hstar | ⟨⟨hon,hmatch⟩,_⟩
  · simp [admits,hstar]
  · simp [admits,hwild,hon,hmatch]

theorem credentials_only_for_listed_origins_iff : credentialsSafe lib cfg req h ↔
    ¬ (asksCredentials lib cfg req = true ∧ looselyListed lib cfg req = true ∧
      ¬ listsOrigin lib cfg req) := by
  constructor
  · rintro ⟨hlisted,_⟩ ⟨hasks,hloose,hnot⟩
    refine hnot (hlisted ((grantsCredentials_iff lib cfg req h).mpr ⟨hasks,?_⟩))
    obtain ⟨e,he,hloose⟩ := List.any_eq_true.mp hloose
    exact List.any_eq_true.mpr ⟨e,he,admits_of_loose lib cfg req hloose⟩
  · intro hcond
    refine ⟨fun hgrants => ?_,fun hboth => origin_ne_star lib cfg req h hboth.1 hboth.2⟩
    obtain ⟨hasks,hany⟩ := (grantsCredentials_iff lib cfg req h).mp hgrants
    obtain ⟨e,he,hadmits⟩ := List.any_eq_true.mp hany
    have hwild : (normalize lib cfg).allowWildcard = cfg.allowWildcard := rfl
    by_contra hnot
    refine hcond ⟨hasks,List.any_eq_true.mpr ⟨e,he,?_⟩,hnot⟩
    by_cases hstar : e = "*"
    · simp [hstar]
    · simp only [admits,hstar,hwild,decide_false,Bool.false_or,Bool.or_eq_true,
        Bool.and_eq_true] at hadmits
      rcases hadmits with hfold | ⟨hon,hmatch⟩
      · exact absurd ⟨e,he,hstar,.inl hfold⟩ hnot
      · by_cases hlong : (origin req).length+1 < e.length
        · simp [hon,hmatch,hlong]
        · exact absurd ⟨e,he,hstar,.inr ⟨hon,listed_of_wildcardMatch hmatch hlong⟩⟩ hnot

end Grants

-- for texts in ASCII and origins that url.Parse accepts
def asciiLibrary : Library where
  toUpper := String.toUpper
  toLower := String.toLower
  equalFold := fun s t => s.toLower = t.toLower
  parses := fun _ => true
  toLower_empty := by decide +kernel

def openWithCredentials : Config :=
  { defaultConfig with enabled := true, allowOrigins := ["*"], allowCredentials := true }

theorem star_entry_grants_credentials :
    ¬ ∀ (lib : Library) (cfg : Config) (req : Request) (h : Header), credentialsSafe lib cfg req h := by
  intro hall
  have hsafe := (hall asciiLibrary openWithCredentials
    ⟨"GET",[("Origin",["https://attacker.example"])]⟩ []).1
  have hgrants : grantsCredentials asciiLibrary openWithCredentials
      ⟨"GET",[("Origin",["https://attacker.example"])]⟩ [] := by
    unfold grantsCredentials
    decide +kernel
  obtain ⟨e,he,hne,_⟩ := hsafe hgrants
  have hlist : (normalize asciiLibrary openWithCredentials).allowOrigins = ["*"] := by decide +kernel
  rw [hlist,List.mem_singleton] at he
  exact hne he

end Nimburion.HTTP.Cors
