import Nimburion.HTTP.CacheEntry
import Nimburion.Lib.MemcachedProtocol

namespace Nimburion.Cache
open GoTime GoText Memcached QueryEscape

def absoluteTTLThreshold : Duration := 30*24*3600*second

-- memcachedkit.TTLToSeconds; thirty days of nanoseconds are exact enough in a float64 for Ceil
def ttlToSeconds (now : Time) (ttl : Duration) : Int :=
  if ttl ≤ 0 then 0
  else if absoluteTTLThreshold < ttl then (now+ttl)/second
  else if (ttl+(second-1))/second ≤ 0 then 1
  else (ttl+(second-1))/second

inductive Call where
  | get (key : Bytes)
  | set (key value : Bytes) (ttl : Duration)
  | delete (key : Bytes)
  | touch (key : Bytes) (ttl : Duration)
  deriving DecidableEq, Repr

namespace Call

def key : Call → Bytes
  | .get key | .set key .. | .delete key | .touch key _ => key

-- what a connected client writes at a time
def write (now : Time) : Call → Bytes
  | .get key => ascii "get " ++ key ++ ascii "\r\n"
  | .set key value ttl =>
      ascii "set " ++ key ++ ascii " 0 " ++ decimal (ttlToSeconds now ttl) ++ ascii " " ++
        digits value.length ++ ascii "\r\n" ++ value ++ ascii "\r\n"
  | .delete key => ascii "delete " ++ key ++ ascii "\r\n"
  | .touch key ttl =>
      ascii "touch " ++ key ++ ascii " " ++ decimal (ttlToSeconds now ttl) ++ ascii "\r\n"

-- connect fails before anything is written
def send (connected : Bool) (now : Time) (call : Call) : Bytes :=
  if connected then call.write now else []

def command (now : Time) : Call → Command
  | .get key => .get [key]
  | .set key value ttl => .set key 0 (ttlToSeconds now ttl) false value
  | .delete key => .delete key false
  | .touch key ttl => .touch key (ttlToSeconds now ttl) false

end Call

-- MemcachedStore over the client
structure MemcachedStore where
  pre : String
  deriving DecidableEq, Repr

def newMemcachedStore (configured : String) : MemcachedStore :=
  ⟨if trimSpace configured = "" then "http-cache" else configured⟩

namespace MemcachedStore

variable (s : MemcachedStore)

def key (key : String) : Bytes := utf8 (s.pre ++ ":" ++ key)

def get (key : String) : Call := .get (s.key key)

def set (key : String) (value : Bytes) (ttl : Duration) : Call := .set (s.key key) value ttl

def delete (key : String) : Call := .delete (s.key key)

end MemcachedStore

section Exactness

variable {now : Time} {key value : Bytes} {ttl : Duration}

theorem isWord_ascii {s : String} (h : s ∈ ["get","set","delete","touch","0"]) : IsWord (ascii s) := by
  simp only [List.mem_cons,List.not_mem_nil,or_false] at h
  rcases h with rfl | rfl | rfl | rfl | rfl <;> exact ⟨by decide,by decide,by decide⟩

theorem parse_get (hkey : validKey key = true) :
    parse ((Call.get key).write now) = [(Call.get key).command now] := by
  have hbytes : (Call.get key).write now = [32].intercalate [ascii "get",key] ++ [13,10] := by
    simp [Call.write,ascii]
  rw [hbytes]
  refine parse_words ?_ (by simp [commandLine,getLine,hkey,Call.command])
  simp [isWord_ascii,isWord_of_validKey hkey]

theorem parse_set (hkey : validKey key = true) :
    parse ((Call.set key value ttl).write now) = [(Call.set key value ttl).command now] := by
  have hbytes : (Call.set key value ttl).write now =
      [32].intercalate [ascii "set",key,ascii "0",decimal (ttlToSeconds now ttl),
        digits value.length] ++ [13,10] ++ (value ++ [13,10]) := by
    simp [Call.write,ascii]
  have hzero : number [48] = some 0 := by decide
  rw [hbytes]
  refine parse_words_data ?_ ?_
  · simp [isWord_ascii,isWord_of_validKey hkey,isWord_decimal,isWord_digits]
  · simp [commandLine,setLine,hkey,hzero,integer_decimal,number_digits,noreply,ascii]

theorem parse_delete (hkey : validKey key = true) :
    parse ((Call.delete key).write now) = [(Call.delete key).command now] := by
  have hbytes : (Call.delete key).write now = [32].intercalate [ascii "delete",key] ++ [13,10] := by
    simp [Call.write,ascii]
  rw [hbytes]
  refine parse_words ?_ (by simp [commandLine,deleteLine,hkey,Call.command,noreply,ascii])
  simp [isWord_ascii,isWord_of_validKey hkey]

theorem parse_touch (hkey : validKey key = true) :
    parse ((Call.touch key ttl).write now) = [(Call.touch key ttl).command now] := by
  have hbytes : (Call.touch key ttl).write now =
      [32].intercalate [ascii "touch",key,decimal (ttlToSeconds now ttl)] ++ [13,10] := by
    simp [Call.write,ascii]
  rw [hbytes]
  refine parse_words ?_ ?_
  · simp [isWord_ascii,isWord_of_validKey hkey,isWord_decimal]
  · simp [commandLine,touchLine,hkey,integer_decimal,noreply,Call.command,ascii]

theorem parse_write_iff (now : Time) (call : Call) :
    parse (call.write now) = [call.command now] ↔ validKey call.key = true := by
  constructor
  · intro h
    have hkeys := keys_parse (c := call.command now) (by rw [h]; simp)
    cases call <;> exact hkeys _ (by simp [Call.command,Command.keys,Call.key])
  · intro hkey
    cases call with
    | get key => exact parse_get hkey
    | set key value ttl => exact parse_set hkey
    | delete key => exact parse_delete hkey
    | touch key ttl => exact parse_touch hkey

theorem write_ne_nil (now : Time) (call : Call) : call.write now ≠ [] := by
  cases call <;> simp [Call.write,ascii]

end Exactness

theorem one_command_written_iff (connected : Bool) (now : Time) (call : Call) :
    (call.send connected now = [] ∨ parse (call.send connected now) = [call.command now]) ↔
      connected = false ∨ validKey call.key = true := by
  cases connected with
  | false => simp [Call.send]
  | true => simp [Call.send,write_ne_nil,parse_write_iff]

-- the decoded path of GET /reports%0D%0Adelete%20session:1
def reportRequest : HTTP.Cache.Request :=
  ⟨"GET","/reports\r\ndelete session:1",fun _ => "",fun _ => "",[],none⟩

theorem path_injects_delete :
    ¬ ∀ (lib : HTTP.Cache.Library) (r : HTTP.Cache.Request) (cfg : HTTP.Cache.Config) (key : String),
      HTTP.Cache.buildCacheKey lib r cfg = .ok key → ∀ (configured : String) (now : Time),
        (((newMemcachedStore configured).get key).send true now = [] ∨
          parse (((newMemcachedStore configured).get key).send true now) =
            [((newMemcachedStore configured).get key).command now]) := by
  intro h
  have hkey : HTTP.Cache.buildCacheKey HTTP.Cache.asciiLibrary reportRequest
      HTTP.Cache.defaultConfig = .ok "http-cache:GET:/reports\r\ndelete session:1:" := by
    decide +kernel
  have hparse : parse (((newMemcachedStore "").get
      "http-cache:GET:/reports\r\ndelete session:1:").send true 0) =
      [.get [ascii "http-cache:http-cache:GET:/reports"],.delete (ascii "session:1:") false] := by
    decide +kernel
  rcases h _ _ _ _ hkey "" 0 with hnil | hone
  · rw [hnil] at hparse
    cases hparse
  · rw [hparse] at hone
    exact absurd (congrArg List.length hone) (by simp)

end Nimburion.Cache
