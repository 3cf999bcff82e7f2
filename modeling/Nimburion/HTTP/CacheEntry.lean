import Nimburion.HTTP.CacheKey

namespace Nimburion.HTTP.Cache
open GoTime GoText

-- under canonical keys
abbrev Header := List (String × List String)

namespace Header

def get (h : Header) (key : String) : String := ((h.lookup key).bind List.head?).getD ""

def values (h : Header) (key : String) : List String := (h.lookup key).getD []

def del (h : Header) (key : String) : Header := h.filter fun entry => entry.1 ≠ key

def put (h : Header) (key : String) (values : List String) : Header := h.del key ++ [(key,values)]

def set (h : Header) (key value : String) : Header := h.put key [value]

theorem lookup_del_self (h : Header) (key : String) : (h.del key).lookup key = none := by
  rw [List.lookup_eq_none_iff]
  intro entry hentry
  have hne := (List.mem_filter.mp hentry).2
  exact bne_iff_ne.mpr (Ne.symm (by simpa using hne))

theorem lookup_del_of_ne (h : Header) {key key' : String} (hne : key' ≠ key) :
    (h.del key).lookup key' = h.lookup key' := by
  induction h with
  | nil => rfl
  | cons entry h ih =>
    obtain ⟨k,values⟩ := entry
    by_cases hk : k = key
    · subst hk
      simpa [del,List.lookup_cons,beq_false_of_ne hne] using ih
    · simp only [del,List.filter_cons_of_pos,hk,List.lookup_cons,ne_eq,not_false_eq_true,decide_true]
      rw [← ih]
      rfl

@[simp] theorem get_del_self (h : Header) (key : String) : (h.del key).get key = "" := by
  rw [get,lookup_del_self]
  rfl

theorem lookup_set_self (h : Header) (key value : String) :
    (h.set key value).lookup key = some [value] := by
  rw [set,put,List.lookup_append,lookup_del_self]
  simp

theorem lookup_set_of_ne (h : Header) {key key' : String} (value : String) (hne : key' ≠ key) :
    (h.set key value).lookup key' = h.lookup key' := by
  have hlast : ([(key,[value])] : Header).lookup key' = none := by simp [hne]
  rw [set,put,List.lookup_append,lookup_del_of_ne h hne,hlast,Option.or_none]

@[simp] theorem get_set_self (h : Header) (key value : String) : (h.set key value).get key = value := by
  rw [get,lookup_set_self]
  rfl

theorem get_set_of_ne (h : Header) {key key' : String} (value : String) (hne : key' ≠ key) :
    (h.set key value).get key' = h.get key' := by
  rw [get,lookup_set_of_ne h value hne,get]

end Header

structure CacheEntry where
  statusCode : Int
  headers : Header
  body : String
  etag : String
  freshUntil : Time
  staleUntil : Time
  deriving DecidableEq, Repr

-- what a handler has written
structure Response where
  status : Int
  headers : Header
  body : String
  deriving DecidableEq, Repr

def defaultConfig : Config :=
  { enabled := false, hasStore := false, ttl := 30*second, staleWhileRevalidate := 0,
    public_ := true, varyHeaders := [], bypassQueryParam := "__cache_bypass",
    keyPrefix := "http-cache", keyRules := [], sensitive := false, requireTenant := false,
    requireAuthFingerprint := false }

def normalizeConfig (cfg : Config) : Config :=
  { cfg with
    ttl := if cfg.ttl ≤ 0 then defaultConfig.ttl else cfg.ttl
    staleWhileRevalidate := if cfg.staleWhileRevalidate < 0 then defaultConfig.staleWhileRevalidate
      else cfg.staleWhileRevalidate
    keyPrefix := if trimSpace cfg.keyPrefix = "" then defaultConfig.keyPrefix else cfg.keyPrefix
    bypassQueryParam := if trimSpace cfg.bypassQueryParam = "" then defaultConfig.bypassQueryParam
      else cfg.bypassQueryParam }

def contains (s sub : String) : Bool := s.toList.tails.any fun t => sub.toList.isPrefixOf t

def parseCSVHeader (value : String) : List String :=
  if trimSpace value = "" then [] else ((split value ',').map trimSpace).filter fun s => s ≠ ""

def buildCacheControl (cfg : Config) : String :=
  ", ".intercalate ([if cfg.public_ then "public" else "private",
    "max-age=" ++ toString (max (cfg.ttl.tdiv second) 0)] ++
    if 0 < cfg.staleWhileRevalidate then
      ["stale-while-revalidate=" ++ toString (cfg.staleWhileRevalidate.tdiv second)]
    else [])

def filterHeaders (h : Header) : Header :=
  ["Connection","Keep-Alive","Proxy-Authenticate","Proxy-Authorization","Te","Trailer",
    "Transfer-Encoding","Upgrade","Set-Cookie","Date","Content-Length"].foldl Header.del h

def ifNoneMatchSatisfied (r : Request) (etag : String) : Bool :=
  if trimSpace etag = "" then false
  else
    let header := trimSpace (r.header "If-None-Match")
    if header = "" then false
    else if header = "*" then true
    else (split header ',').any fun token => trimSpace token = etag

-- ttl and window as time.Duration adds them
def storeTTL (cfg : Config) : Duration :=
  let ttl := (cfg.ttl+cfg.staleWhileRevalidate).bmod 18446744073709551616
  if ttl ≤ 0 then cfg.ttl else ttl

section Entries

variable (lib : Library)

def shouldBypass (r : Request) (cfg : Config) : Bool :=
  let cc := lib.toLower (trimSpace (r.header "Cache-Control"))
  if contains cc "no-cache" || contains cc "no-store" then true
  else if trimSpace cfg.bypassQueryParam = "" then false
  else
    let val := lib.toLower (trimSpace (r.queryGet (trimSpace cfg.bypassQueryParam)))
    !(val = "" || val = "0" || val = "false" || val = "off")

def computeETag (body : String) : String :=
  "W/\"" ++ String.ofList ((List.finRange 32).flatMap fun i => lowerHex (lib.sum256 body i)) ++ "\""

def addVary (merged : List String) (item : String) : List String :=
  let normalized := lib.toLower (trimSpace item)
  if normalized = "" || merged.any (fun m => lib.toLower (trimSpace m) = normalized) then merged
  else merged ++ [trimSpace item]

def applyVary (h : Header) (vary : List String) : Header :=
  if vary = [] then h
  else
    let merged := (parseCSVHeader (h.get "Vary") ++ vary).foldl (addVary lib) []
    if merged = [] then h else h.set "Vary" (", ".intercalate merged)

def fillCacheControl (cfg : Config) (h : Header) : Header :=
  if trimSpace (h.get "Cache-Control") = "" then h.set "Cache-Control" (buildCacheControl cfg) else h

-- the entry of a response; the header reads ETag under its canonical key
def buildEntry (cfg : Config) (resp : Response) (fresh stale : Time) : CacheEntry :=
  let h := filterHeaders resp.headers
  let found := trimSpace (h.get "Etag")
  let etag := if found = "" then computeETag lib resp.body else found
  let h := if found = "" then h.set "Etag" etag else h
  ⟨resp.status,fillCacheControl cfg (applyVary lib h cfg.varyHeaders),resp.body,etag,
    fresh+cfg.ttl,stale+(cfg.ttl+cfg.staleWhileRevalidate).bmod 18446744073709551616⟩

def servedHeader (cfg : Config) (h : Header) (entry : CacheEntry) (state : String) : Header :=
  let h := entry.headers.foldl (fun h field => h.put field.1 field.2) h
  let h := applyVary lib (fillCacheControl cfg h) cfg.varyHeaders
  let h := if trimSpace entry.etag = "" then h else h.set "Etag" entry.etag
  h.set "X-Cache" state

end Entries

end Nimburion.HTTP.Cache
