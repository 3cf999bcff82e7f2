import Nimburion.Errors
import Nimburion.Lib.BigEndian
import Nimburion.Lib.GoTime
import Nimburion.Lib.InteractionTrace

namespace Nimburion.Auth.Jwks
open Interaction GoTime

structure JWK where
  kid : String
  kty : String
  use : String
  alg : String
  n : String
  e : String
  deriving DecidableEq, Repr

structure PublicKey where
  n : ℕ
  e : Int64
  deriving DecidableEq, Repr

section Base64

def sextet (c : Char) : Option ℕ :=
  if 'A' ≤ c ∧ c ≤ 'Z' then some (c.toNat-65)
  else if 'a' ≤ c ∧ c ≤ 'z' then some (c.toNat-71)
  else if '0' ≤ c ∧ c ≤ '9' then some (c.toNat+4)
  else if c = '-' then some 62
  else if c = '_' then some 63
  else none

def octets : List ℕ → Option (List UInt8)
  | [] => some []
  | [_] => none
  | [a,b] => some [UInt8.ofNat (4*a+b/16)]
  | [a,b,c] => some [UInt8.ofNat (4*a+b/16),UInt8.ofNat (b%16*16+c/4)]
  | a :: b :: c :: d :: rest => (octets rest).map fun bytes =>
      UInt8.ofNat (4*a+b/16) :: UInt8.ofNat (b%16*16+c/4) :: UInt8.ofNat (c%4*64+d) :: bytes

-- the decoder passes over line ends and takes no padding
def rawURLDecode (s : String) : Option (List UInt8) :=
  ((s.toList.filter fun c => c ≠ '\r' ∧ c ≠ '\n').mapM sextet).bind octets

end Base64

-- a key that does not parse is logged and passed over
inductive ParseError where
  | unsupported (kty : String)
  | modulus
  | exponent
  deriving DecidableEq, Repr

def parseJWK (jwk : JWK) : Except ParseError PublicKey :=
  if jwk.kty ≠ "RSA" then .error (.unsupported jwk.kty)
  else match rawURLDecode jwk.n with
    | none => .error .modulus
    | some n => match rawURLDecode jwk.e with
      | none => .error .exponent
      | some e => .ok ⟨BigEndian.value n,Int64.ofNat (BigEndian.value e)⟩

abbrev Keys := List (String × PublicKey)

-- the later of two keys with one ID stands before the earlier and hides it
def addKey (keys : Keys) (jwk : JWK) : Keys :=
  match parseJWK jwk with
  | .ok key => (jwk.kid,key) :: keys
  | .error _ => keys

def parsedKeys (jwks : List JWK) : Keys := jwks.foldl addKey []

inductive Reply where
  | failed (err : GoError)
  | answered (status : ℕ) (body : Except GoError (List JWK))
  deriving DecidableEq, Repr

inductive Op where
  | get (kid : String)
  | fetch
  | set (keys : Keys)
  deriving DecidableEq, Repr

abbrev Ans : Op → Type
  | .get _ => Option PublicKey
  | .fetch => Reply
  | .set _ => Unit

abbrev M := Prog Op Ans GoError

structure Client where
  jwksURL : String
  ttl : Duration
  allowPrivateHosts : Bool

-- url.Parse and the test of the host
variable (validateHTTPURLWithOptions : String → Bool → Option GoError)

def store (jwks : List JWK) : M Unit :=
  if (parsedKeys jwks).length = 0 then .fail (.text "no valid keys found in JWKS response")
  else Prog.perform (Op.set (parsedKeys jwks))

def refreshJWKS (c : Client) : M Unit :=
  match validateHTTPURLWithOptions c.jwksURL c.allowPrivateHosts with
  | some err => .fail (.wrapped "invalid jwks url: " err)
  | none => do
    let reply ← Prog.perform Op.fetch
    match reply with
    | .failed err => .fail (.wrapped "failed to fetch JWKS: " err)
    | .answered status body =>
      if status ≠ 200 then .fail (.text ("JWKS endpoint returned status " ++ toString status))
      else match body with
        | .error err => .fail (.wrapped "failed to decode JWKS response: " err)
        | .ok jwks => store jwks

def found (kid : String) : Option PublicKey → M PublicKey
  | some key => pure key
  | none => .fail (.text ("key not found: " ++ kid))

def getKey (c : Client) (kid : String) : M PublicKey := do
  let key ← Prog.perform (Op.get kid)
  match key with
  | some key => pure key
  | none => do
    let refreshed ← (refreshJWKS validateHTTPURLWithOptions c).attempt
    match refreshed with
    | .error err => .fail (.wrapped "failed to refresh JWKS: " err)
    | .ok _ => do
      let key ← Prog.perform (Op.get kid)
      found kid key

structure Cache where
  now : Time
  keys : Keys
  expiresAt : Time
  deriving DecidableEq, Repr

def newCache (now : Time) : Cache := ⟨now,[],zeroTime⟩

def Cache.get (s : Cache) (kid : String) : Option PublicKey :=
  if s.expiresAt < s.now then none else s.keys.lookup kid

def Cache.set (ttl : Duration) (s : Cache) (keys : Keys) : Cache :=
  { s with keys := keys, expiresAt := s.now+ttl }

def exec (ttl : Duration) (s : Cache) (op : Op) (reply : Reply) : Option (Ans op × Cache) :=
  match op with
  | .get kid => some (s.get kid,s)
  | .fetch => some (reply,s)
  | .set keys => some ((),s.set ttl keys)

def tick (s : Cache) (elapsed : ℕ) : Cache := { s with now := s.now+elapsed }

def client (c : Client) : Machine Ans GoError Cache String PublicKey Reply ℕ :=
  ⟨getKey validateHTTPURLWithOptions c,exec c.ttl,tick⟩

abbrev Calls := Config Ans GoError Cache String PublicKey

section Discipline

-- only what the same call has fetched is cached
def discipline : Spec Ans where
  pre tr op := match op with
    | .set keys => ∃ jwks, (⟨.fetch,.answered 200 (.ok jwks)⟩ : Event Ans) ∈ tr ∧ keys = parsedKeys jwks
    | _ => True
  ans _ _ := True

-- the last thing a call does before it returns a key is to read it from the cache
def Returns (kid : String) (tr : List (Event Ans)) : Except GoError PublicKey → Prop
  | .ok key => ∃ before, tr = ⟨.get kid,some key⟩ :: before
  | .error _ => True

theorem meets_found (kid : String) (tr : List (Event Ans)) (answer : Option PublicKey) :
    Prog.Meets discipline (Returns kid) (⟨.get kid,answer⟩ :: tr) (found kid answer) := by
  cases answer with
  | none => trivial
  | some key => exact ⟨tr,rfl⟩

theorem meets_refresh (c : Client) (tr : List (Event Ans)) :
    Prog.Meets discipline (fun _ _ => True) tr (refreshJWKS validateHTTPURLWithOptions c) := by
  unfold refreshJWKS
  cases validateHTTPURLWithOptions c.jwksURL c.allowPrivateHosts with
  | some err => trivial
  | none =>
    simp only [Prog.meets_bind,Prog.meets_perform]
    refine ⟨trivial,fun reply _ => ?_⟩
    cases reply with
    | failed err => trivial
    | answered status body =>
      by_cases hstatus : status = 200
      · subst hstatus
        cases body with
        | error err => trivial
        | ok jwks =>
          simp only [ne_eq,not_true,↓reduceIte,store,Prog.meets_ite]
          exact ⟨fun _ => trivial,fun _ => ⟨⟨jwks,List.mem_cons_self,rfl⟩,fun _ _ => trivial⟩⟩
      · simp [hstatus]

theorem meets_getKey (c : Client) (kid : String) :
    Prog.Meets discipline (Returns kid) [] (getKey validateHTTPURLWithOptions c kid) := by
  unfold getKey
  simp only [Prog.meets_bind,Prog.meets_perform]
  refine ⟨trivial,fun key _ => ?_⟩
  cases key with
  | some key => exact ⟨[],rfl⟩
  | none =>
    simp only [Prog.meets_bind,Prog.meets_attempt]
    refine Prog.meets_mono (fun tr r _ => ?_) (meets_refresh validateHTTPURLWithOptions c _)
    cases r with
    | error err => trivial
    | ok u =>
      simp only [Prog.meets_bind,Prog.meets_perform]
      exact ⟨trivial,fun answer _ => meets_found kid tr answer⟩

end Discipline

theorem mem_of_lookup {keys : Keys} {kid : String} {key : PublicKey} (h : keys.lookup kid = some key) :
    (kid,key) ∈ keys := by
  obtain ⟨l₁,l₂,hl,-⟩ := List.lookup_eq_some_iff.mp h
  simp [hl]

theorem mem_addKey {keys : Keys} {jwk : JWK} {kid : String} {key : PublicKey}
    (h : (kid,key) ∈ addKey keys jwk) :
    (kid,key) ∈ keys ∨ (jwk.kid = kid ∧ parseJWK jwk = .ok key) := by
  unfold addKey at h
  cases hparse : parseJWK jwk with
  | error err =>
    rw [hparse] at h
    exact .inl h
  | ok parsed =>
    rw [hparse] at h
    rcases List.mem_cons.mp h with heq | hold
    · cases heq
      exact .inr ⟨rfl,rfl⟩
    · exact .inl hold

theorem mem_foldl_addKey {jwks : List JWK} {keys : Keys} {kid : String} {key : PublicKey}
    (h : (kid,key) ∈ jwks.foldl addKey keys) :
    (kid,key) ∈ keys ∨ ∃ jwk ∈ jwks, jwk.kid = kid ∧ parseJWK jwk = .ok key := by
  induction jwks generalizing keys with
  | nil => exact .inl h
  | cons jwk jwks ih =>
    rcases ih h with hadded | ⟨other,hother,hkey⟩
    · rcases mem_addKey hadded with hold | hkey
      · exact .inl hold
      · exact .inr ⟨jwk,List.mem_cons_self,hkey⟩
    · exact .inr ⟨other,List.mem_cons_of_mem _ hother,hkey⟩

theorem mem_parsedKeys {jwks : List JWK} {kid : String} {key : PublicKey}
    (h : (parsedKeys jwks).lookup kid = some key) :
    ∃ jwk ∈ jwks, jwk.kid = kid ∧ parseJWK jwk = .ok key := by
  rcases mem_foldl_addKey (mem_of_lookup h) with hnil | hsome
  · exact nomatch hnil
  · exact hsome

section Freshness

variable (c : Client) (start : Time)

abbrev Acts := List (Action String Reply ℕ)

-- the step of the run that put the keys into the cache that are there now
def Filled (acts : Acts) (calls : Calls) : Prop :=
  ∃ j kid before jwks, ∃ set : (client validateHTTPURLWithOptions c).Happened acts
      ⟨newCache start,[]⟩ calls j kid before ⟨.set (parsedKeys jwks),()⟩,
    (⟨.fetch,.answered 200 (.ok jwks)⟩ : Event Ans) ∈ before ∧
    calls.shared.keys = parsedKeys jwks ∧
    calls.shared.expiresAt = set.source.shared.now+c.ttl ∧
    set.source.shared.now ≤ calls.shared.now

variable {c start} {validateHTTPURLWithOptions} {acts : Acts} {d calls : Calls}

theorem meets_run (hrun : (client validateHTTPURLWithOptions c).run acts ⟨newCache start,[]⟩ =
    some calls) : Machine.ThreadsMeet (fun _ => discipline) (fun kid => Returns kid) calls :=
  (Machine.run_shared_invariant (m := client validateHTTPURLWithOptions c) (J := fun _ => True)
    (P := fun _ _ => True) (meets_getKey validateHTTPURLWithOptions c)
    (fun _ _ _ _ _ _ _ _ _ _ _ _ => ⟨trivial,trivial⟩) (fun _ _ _ _ => trivial) trivial
    (fun _ h => (List.not_mem_nil h).elim) (Machine.along_true _ acts _) hrun).2

-- a step that leaves the keys alone leaves the step that put them there as it is
theorem Filled.extend {a : Action String Reply ℕ} (h : Filled validateHTTPURLWithOptions c start acts d)
    (hs : (client validateHTTPURLWithOptions c).step d a = some calls)
    (hkeys : calls.shared.keys = d.shared.keys) (hexpires : calls.shared.expiresAt = d.shared.expiresAt)
    (hnow : d.shared.now ≤ calls.shared.now) :
    Filled validateHTTPURLWithOptions c start (acts ++ [a]) calls := by
  obtain ⟨j,kid,before,jwks,set,hfetched,hset,hdeadline,hbefore⟩ := h
  have hlast : (client validateHTTPURLWithOptions c).run [a] d = some calls := by
    rw [Machine.run_of_step _ hs,Machine.run_nil]
  exact ⟨j,kid,before,jwks,set.extend hlast rfl rfl,hfetched,hkeys.trans hset,
    hexpires.trans hdeadline,Int.le_trans hbefore hnow⟩

theorem filled_step {a : Action String Reply ℕ}
    (hrun : (client validateHTTPURLWithOptions c).run acts ⟨newCache start,[]⟩ = some d)
    (hs : (client validateHTTPURLWithOptions c).step d a = some calls)
    (h : d.shared.keys = [] ∨ Filled validateHTTPURLWithOptions c start acts d) :
    calls.shared.keys = [] ∨ Filled validateHTTPURLWithOptions c start (acts ++ [a]) calls := by
  have hkept : calls.shared.keys = d.shared.keys → calls.shared.expiresAt = d.shared.expiresAt →
      d.shared.now ≤ calls.shared.now →
      calls.shared.keys = [] ∨ Filled validateHTTPURLWithOptions c start (acts ++ [a]) calls :=
    fun hkeys hexpires hnow => h.imp (fun hempty => hkeys.trans hempty)
      fun hfilled => hfilled.extend hs hkeys hexpires hnow
  obtain ⟨kid,rfl,rfl⟩ | ⟨i,reply,t,op,k,ans,s',rfl,ht,_,hrest,hx,rfl⟩ | ⟨i,t,rfl,_,rfl⟩ |
    ⟨elapsed,rfl,rfl⟩ := Machine.step_cases _ hs
  · exact hkept rfl rfl (Int.le_refl _)
  · cases op with
    | get kid =>
      cases hx
      exact hkept rfl rfl (Int.le_refl _)
    | fetch =>
      cases hx
      exact hkept rfl rfl (Int.le_refl _)
    | set keys =>
      have hmeets := meets_run hrun t (List.mem_of_getElem? ht)
      rw [hrest] at hmeets
      obtain ⟨jwks,hfetched,rfl⟩ := hmeets.1
      cases hx
      refine .inr ⟨i,t.call,t.trace,jwks,⟨acts,reply,[],d,_,t,rfl,hrun,hs,rfl,ht,rfl,rfl,rfl⟩,
        hfetched,rfl,rfl,Int.le_refl _⟩
  · exact hkept rfl rfl (Int.le_refl _)
  · exact hkept rfl rfl (Int.le_add_of_nonneg_right (Int.natCast_nonneg elapsed))

theorem filled_run (hrun : (client validateHTTPURLWithOptions c).run acts ⟨newCache start,[]⟩ =
    some calls) : calls.shared.keys = [] ∨ Filled validateHTTPURLWithOptions c start acts calls := by
  induction acts using List.reverseRecOn generalizing calls with
  | nil =>
    rw [Machine.run_nil,Option.some.injEq] at hrun
    exact .inl (hrun ▸ rfl)
  | append_singleton acts a ih =>
    rw [Machine.run_append,Option.bind_eq_some_iff] at hrun
    obtain ⟨d,hd,hlast⟩ := hrun
    rw [Machine.run_cons,Option.bind_eq_some_iff] at hlast
    obtain ⟨d',hs,hd'⟩ := hlast
    cases hd'
    exact filled_step hd hs (ih hd)

theorem get_eq_some {s : Cache} {kid : String} {key : PublicKey} (h : s.get kid = some key) :
    s.now ≤ s.expiresAt ∧ s.keys.lookup kid = some key := by
  simp only [Cache.get,Option.ite_none_left_eq_some] at h
  exact ⟨Int.not_lt.mp h.1,h.2⟩

end Freshness

-- the key was read by the call itself, in its last step and at most one TTL after the step that
-- cached it, and the key set cached there is one that the endpoint had answered with status 200
def Published (c : Client) (start : Time) (acts : Acts) (calls : Calls) (i : ℕ)
    (t : Thread Ans GoError String PublicKey) (key : PublicKey) : Prop :=
  ∃ before, t.trace = ⟨.get t.call,some key⟩ :: before ∧
  ∃ read : (client validateHTTPURLWithOptions c).Happened acts ⟨newCache start,[]⟩ calls i t.call
    before ⟨.get t.call,some key⟩,
  ∃ j kid earlier jwks, ∃ set : (client validateHTTPURLWithOptions c).Happened read.pre
    ⟨newCache start,[]⟩ read.source j kid earlier ⟨.set (parsedKeys jwks),()⟩,
    (⟨.fetch,.answered 200 (.ok jwks)⟩ : Event Ans) ∈ earlier ∧
    read.source.shared.keys = parsedKeys jwks ∧
    (∃ jwk ∈ jwks, jwk.kid = t.call ∧ parseJWK jwk = .ok key) ∧
    set.source.shared.now ≤ read.source.shared.now ∧
    read.source.shared.now ≤ set.source.shared.now+c.ttl

theorem served_keys_published (c : Client) (start : Time) (acts : Acts) (calls : Calls)
    (hrun : (client validateHTTPURLWithOptions c).run acts ⟨newCache start,[]⟩ = some calls)
    (i : ℕ) (t : Thread Ans GoError String PublicKey) (key : PublicKey)
    (ht : calls.threads[i]? = some t) (hret : t.rest = .ret key) :
    Published validateHTTPURLWithOptions c start acts calls i t key := by
  have hmeets := meets_run hrun t (List.mem_of_getElem? ht)
  rw [hret] at hmeets
  obtain ⟨before,htrace⟩ := hmeets
  obtain ⟨read⟩ := Machine.run_event _ rfl hrun ht [] htrace
  have hget : read.source.shared.get t.call = some key := by
    have heffect := read.effect
    simp only [client,exec,Option.some.injEq,Prod.mk.injEq] at heffect
    exact heffect.1
  obtain ⟨hfresh,hlookup⟩ := get_eq_some hget
  rcases filled_run read.reached with hempty | ⟨j,kid,earlier,jwks,set,hfetched,hkeys,hexpires,hnow⟩
  · rw [hempty] at hlookup
    cases hlookup
  · rw [hkeys] at hlookup
    rw [hexpires] at hfresh
    exact ⟨before,htrace,read,j,kid,earlier,jwks,set,hfetched,hkeys,mem_parsedKeys hlookup,hnow,hfresh⟩

def rotatedKey : JWK := ⟨"k2","RSA","sig","RS256","uw","AQAB"⟩

-- a call for k2 overlaps one for k1, and the endpoint publishes k2 only to the second
def overlapping : Acts :=
  let old : List JWK := [⟨"k1","RSA","sig","RS256","mQ","AQAB"⟩,⟨"ec","EC","sig","ES256","",""⟩]
  let idle : Reply := .failed (.text "")
  [.start "k1",.exec 0 idle,.start "k2",.exec 1 idle,.exec 0 (.answered 200 (.ok old)),.env 40,
    .exec 1 (.answered 200 (.ok [rotatedKey])),.exec 0 idle,.env 10,.exec 1 idle,.exec 1 idle]

def publicClient : Client := ⟨"https://id.example/jwks",3600,false⟩

theorem served_keys_published_overlapping :
    ∃ calls t, (client (fun _ _ => none) publicClient).run overlapping ⟨newCache 1000,[]⟩ = some calls ∧
      calls.threads[1]? = some t ∧ t.rest = .ret ⟨187,65537⟩ ∧
      Published (fun _ _ => none) publicClient 1000 overlapping calls 1 t ⟨187,65537⟩ :=
  ⟨_,_,rfl,rfl,rfl,served_keys_published (fun _ _ => none) publicClient 1000 overlapping _ rfl 1 _
    ⟨187,65537⟩ rfl rfl⟩

end Nimburion.Auth.Jwks
