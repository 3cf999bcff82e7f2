import Nimburion.Coordination.Lock

namespace Nimburion.Coordination.RedisLock
open Interaction GoText GoTime LeaseTable

def defaultRedisPrefix : String := "nimburion:coordination:lock"

-- go-redis sends SetArgs.TTL in milliseconds (whole seconds as EX), and at least one
def setArgsTTL (ttl : Duration) : Int :=
  if 0 < ttl ∧ ttl < millisecond then 1 else ttl.tdiv millisecond

def milliseconds (d : Duration) : Int := d.tdiv millisecond

section Client

variable (keyPrefix : String)

def fullKey (key : String) : String :=
  trimRight keyPrefix (fun c => decide (c = ':')) ++ ":" ++ trimSpace key

def acquire (key : String) (ttl : Duration) : M Result :=
  let key := trimSpace key
  if key = "" then Prog.fail (coordinationError errInvalidArgument "lock key is required")
  else if ttl ≤ 0 then Prog.fail (coordinationError errInvalidArgument "ttl must be > 0")
  else do
    let token ← Prog.perform Op.randomToken
    let status ← Prog.perform
      (Op.run (.claim (fullKey keyPrefix key) token.text (setArgsTTL ttl)))
    match status with
    | .failed e | .unread e =>
        Prog.fail (.join (coordinationError errRetryable "acquire lock failed") e)
    | .rows false => pure .notAcquired
    | .rows true => do
        let now ← Prog.perform Op.now
        pure (.acquired ⟨key,token.text,now+ttl⟩)

def renew (lease : Option LockLease) (ttl : Duration) : M Result :=
  match lease with
  | none => Prog.fail (coordinationError errInvalidArgument "lease is required")
  | some lease =>
      let key := trimSpace lease.key
      let token := trimSpace lease.token
      if ttl ≤ 0 then Prog.fail (coordinationError errInvalidArgument "ttl must be > 0")
      else if key = "" ∨ token = "" then
        Prog.fail (coordinationError errInvalidArgument "lease key and token are required")
      else do
        let result ← Prog.perform
          (Op.run (.extend (fullKey keyPrefix key) token (milliseconds ttl)))
        match result with
        | .failed e | .unread e =>
            Prog.fail (.join (coordinationError errRetryable "renew lock failed") e)
        | .rows false => Prog.fail (coordinationError errConflict "lock renew rejected")
        | .rows true => do
            let now ← Prog.perform Op.now
            pure (.renewed { lease with expireAt := now+ttl })

def release (lease : Option LockLease) : M Result :=
  match lease with
  | none => Prog.fail (coordinationError errInvalidArgument "lease is required")
  | some lease =>
      let key := trimSpace lease.key
      let token := trimSpace lease.token
      if key = "" ∨ token = "" then
        Prog.fail (coordinationError errInvalidArgument "lease key and token are required")
      else do
        let result ← Prog.perform (Op.run (.drop (fullKey keyPrefix key) token))
        match result with
        | .failed e | .unread e =>
            Prog.fail (.join (coordinationError errRetryable "release lock failed") e)
        | .rows false => Prog.fail (coordinationError errConflict "lock release rejected")
        | .rows true => pure .released

end Client

-- a key is still there at its own deadline and gone in the millisecond after it
def alive (now : Time) (row : Row String) : Bool := unixMilli now ≤ row.expiresAt

-- PEXPIRE with a time that is not positive deletes the key and answers 1
def pexpireAt (now : Time) (ms : Int) : Option Int :=
  if ms ≤ 0 then none else some (unixMilli now+ms)

def serve (now : Time) (tab : Locks) : Command → Bool × Locks
  | .claim key token ms => claim (alive now) tab key token (unixMilli now+ms)
  | .extend key token ms => extend (alive now) tab key token (pexpireAt now ms)
  | .drop key token => drop (alive now) tab key token

def provider (keyPrefix : String) : Provider where
  acquire := acquire keyPrefix
  renew := renew keyPrefix
  release := release keyPrefix
  storedKey := fullKey keyPrefix
  alive := alive
  serve := serve

def sends (keyPrefix : String) (call : Call) (cmd : Command) : Prop :=
  Addresses (fullKey keyPrefix) call cmd ∧ match call, cmd with
    | .renew _ ttl, .extend _ _ ms => ms = milliseconds ttl
    | _, _ => True

@[simp] theorem fullKey_trimSpace (keyPrefix key : String) :
    fullKey keyPrefix (trimSpace key) = fullKey keyPrefix key := by
  simp [fullKey]

theorem ready_acquire (keyPrefix key : String) (ttl : Duration) :
    Prog.Always (Ready (sends keyPrefix) (.acquire key ttl)) [] (acquire keyPrefix key ttl) := by
  simp only [acquire,Prog.always_ite,Prog.always_fail,Prog.always_perform_bind]
  refine ⟨fun hkey => answers_rejected _ fun h => h.1 hkey,fun hkey => ⟨?_,fun httl => ?_⟩⟩
  · exact fun httl => answers_rejected _ fun h => absurd httl (Int.not_le.mpr h.2)
  · have hvalid : Call.Valid (.acquire key ttl) := ⟨hkey,Int.not_le.mp httl⟩
    refine ⟨trivial,fun token => ?_⟩
    have hsends : sends keyPrefix (.acquire key ttl)
        (.claim (fullKey keyPrefix (trimSpace key)) token.text (setArgsTTL ttl)) :=
      ⟨⟨hvalid.2,fullKey_trimSpace _ _⟩,trivial⟩
    refine ⟨ready_run hsends rfl ?_,?_⟩
    · exact succeeds_iff not_succeeds_notAcquired (succeeds_now fun _ => ⟨_,rfl,rfl⟩)
        (fun _ => not_succeeds_fail _) (fun _ => not_succeeds_fail _)
    · rintro ((_ | _) | e | e)
      · exact (Prog.always_pure ..).mpr ⟨answers_decided hvalid hsends rfl trivial,trivial⟩
      · refine (Prog.always_perform_bind ..).mpr ⟨trivial,fun now => (Prog.always_pure ..).mpr ?_⟩
        exact ⟨answers_decided hvalid hsends rfl ⟨rfl,rfl⟩,token,by simp [drew],rfl⟩
      · exact ready_retryable _ hvalid hsends rfl (.inl rfl)
      · exact ready_retryable _ hvalid hsends rfl (.inr rfl)

theorem ready_renew (keyPrefix : String) (lease : Option LockLease) (ttl : Duration) :
    Prog.Always (Ready (sends keyPrefix) (.renew lease ttl)) [] (renew keyPrefix lease ttl) := by
  cases lease with
  | none => exact (Prog.always_fail ..).mpr (answers_rejected _ fun h => h)
  | some lease =>
    simp only [renew,Prog.always_ite,Prog.always_fail,Prog.always_perform_bind]
    refine ⟨?_,fun httl => ⟨fun hblank => ?_,fun hblank => ?_⟩⟩
    · exact fun httl => answers_rejected _ fun h => absurd httl (Int.not_le.mpr h.1)
    · exact answers_rejected _ fun h => absurd hblank (not_or.mpr h.2)
    · have hvalid : Call.Valid (.renew (some lease) ttl) := ⟨Int.not_le.mp httl,not_or.mp hblank⟩
      have hsends : sends keyPrefix (.renew (some lease) ttl) (.extend
          (fullKey keyPrefix (trimSpace lease.key)) (trimSpace lease.token) (milliseconds ttl)) :=
        ⟨⟨hvalid.1,fullKey_trimSpace _ _,rfl⟩,rfl⟩
      refine ⟨ready_run hsends rfl ?_,?_⟩
      · exact succeeds_iff (not_succeeds_fail _) (succeeds_now fun _ => ⟨_,rfl,rfl⟩)
          (fun _ => not_succeeds_fail _) (fun _ => not_succeeds_fail _)
      · rintro ((_ | _) | e | e)
        · exact ready_conflict _ hvalid hsends rfl fun _ h => h
        · refine (Prog.always_perform_bind ..).mpr ⟨trivial,fun now => (Prog.always_pure ..).mpr ?_⟩
          exact ⟨answers_decided hvalid hsends rfl ⟨rfl,rfl⟩,rfl⟩
        · exact ready_retryable _ hvalid hsends rfl (.inl rfl)
        · exact ready_retryable _ hvalid hsends rfl (.inr rfl)

theorem ready_release (keyPrefix : String) (lease : Option LockLease) :
    Prog.Always (Ready (sends keyPrefix) (.release lease)) [] (release keyPrefix lease) := by
  cases lease with
  | none => exact (Prog.always_fail ..).mpr (answers_rejected _ fun h => h)
  | some lease =>
    simp only [release,Prog.always_ite,Prog.always_fail,Prog.always_perform_bind]
    refine ⟨fun hblank => answers_rejected _ fun h => absurd hblank (not_or.mpr h),fun hblank => ?_⟩
    have hvalid : Call.Valid (.release (some lease)) := not_or.mp hblank
    have hsends : sends keyPrefix (.release (some lease))
        (.drop (fullKey keyPrefix (trimSpace lease.key)) (trimSpace lease.token)) :=
      ⟨⟨fullKey_trimSpace _ _,rfl⟩,trivial⟩
    refine ⟨ready_run hsends rfl ?_,?_⟩
    · exact succeeds_iff (not_succeeds_fail _) ⟨_,rfl,rfl⟩
        (fun _ => not_succeeds_fail _) (fun _ => not_succeeds_fail _)
    · rintro ((_ | _) | e | e)
      · exact ready_conflict _ hvalid hsends rfl fun _ h => h
      · exact (Prog.always_pure ..).mpr ⟨answers_decided hvalid hsends rfl trivial,trivial⟩
      · exact ready_retryable _ hvalid hsends rfl (.inl rfl)
      · exact ready_retryable _ hvalid hsends rfl (.inr rfl)

theorem ready (keyPrefix : String) (call : Call) :
    Prog.Always (Ready (sends keyPrefix) call) [] ((provider keyPrefix).program call) := by
  cases call with
  | acquire key ttl => simpa only [Provider.program,provider] using ready_acquire keyPrefix key ttl
  | renew lease ttl => simpa only [Provider.program,provider] using ready_renew keyPrefix lease ttl
  | release lease => simpa only [Provider.program,provider] using ready_release keyPrefix lease

section Safety

variable {keyPrefix : String}

structure Guarded (keyPrefix : String) (c : Clients) (a : Step) (c' : Clients) : Prop where
  exclusive : Exclusive (provider keyPrefix) c'
  refused : ∀ t t' cmd o lease, Performs c a c' t t' cmd o → leaseOf t.call = some lease →
    (provider keyPrefix).holds c.shared lease.key (trimSpace lease.token) = false →
    c'.shared.table = c.shared.table ∧
      (o = .done → ∃ e, t'.rest = .fail e ∧ GoError.wraps errConflict e = true)
  granted : ∀ t ∈ c'.threads, ∀ lease, t.rest = .ret (.renewed lease) → renewGranted t.trace = true
  -- a Release that returned success too had its script run and answered with 1
  returns : ∀ t ∈ c'.threads, Returns (sends keyPrefix) t
  kept : ∀ t t' cmd o lease ttl, Performs c a c' t t' cmd o → t.call = .renew (some lease) ttl →
    Succeeds t'.rest → ∃ row, c'.shared.table (fullKey keyPrefix lease.key) = some row ∧
      row.token = trimSpace lease.token ∧
      unixMilli c.shared.clock+max 1 (milliseconds ttl) ≤ row.expiresAt

-- a Renew that reaches the server while its lease is current asks for a millisecond or more
def renewsWhole (keyPrefix : String) (c : Clients) (a : Step) : Bool :=
  match c.next a with
  | some (⟨.renew (some lease) ttl,_,_,_⟩,.run _,.done) =>
      !(provider keyPrefix).holds c.shared lease.key (trimSpace lease.token) || millisecond ≤ ttl
  | _ => true

def RenewsWhole (keyPrefix : String) (c : Clients) (a : Step) : Prop :=
  renewsWhole keyPrefix c a = true

instance (keyPrefix : String) (c : Clients) (a : Step) : Decidable (RenewsWhole keyPrefix c a) :=
  inferInstanceAs (Decidable (_ = true))

theorem renewsWhole_iff {c : Clients} {a : Step} : RenewsWhole keyPrefix c a ↔
    ∀ t cmd lease ttl, c.next a = some (t,.run cmd,.done) → t.call = .renew (some lease) ttl →
      (provider keyPrefix).holds c.shared lease.key (trimSpace lease.token) = true →
      millisecond ≤ ttl := by
  unfold RenewsWhole renewsWhole
  split
  · rename_i lease ttl rest trace live cmd hnext
    simp only [hnext,Bool.or_eq_true,Bool.not_eq_true',decide_eq_true_eq]
    constructor
    · rintro h t cmd' lease' ttl' heq hcall hheld
      cases heq
      cases hcall
      exact h.resolve_left (by simp [hheld])
    · intro h
      cases hheld : (provider keyPrefix).holds c.shared lease.key (trimSpace lease.token) with
      | false => exact .inl rfl
      | true => exact .inr (h _ cmd lease ttl rfl rfl hheld)
  · rename_i hother
    refine ⟨fun _ t cmd lease ttl hnext hcall _ => ?_,fun _ => rfl⟩
    obtain ⟨call,rest,trace,live⟩ := t
    cases hcall
    exact (hother _ _ _ _ _ _ hnext).elim

variable {c c' : Clients} {a : Step}

theorem serve_stale {call : Call} {cmd : Command} {lease : LockLease} {s : Server}
    (h : Addresses (fullKey keyPrefix) call cmd) (hlease : leaseOf call = some lease)
    (hstale : (provider keyPrefix).holds s lease.key (trimSpace lease.token) = false) :
    (provider keyPrefix).serve s.clock s.table cmd = (false,s.table) := by
  obtain ⟨ms,rfl⟩ | rfl := addresses_lease h hlease
  · exact extend_of_stale hstale _
  · exact drop_of_stale hstale

theorem refused_unchanged {t t' : Client} {cmd : Command} {o : Outcome} {lease : LockLease}
    (h : Tracked (provider keyPrefix) (sends keyPrefix) c)
    (hs : (provider keyPrefix).locks.step c a = some c') (hp : Performs c a c' t t' cmd o)
    (hlease : leaseOf t.call = some lease)
    (hstale : (provider keyPrefix).holds c.shared lease.key (trimSpace lease.token) = false) :
    c'.shared.table = c.shared.table ∧
      (o = .done → ∃ e, t'.rest = .fail e ∧ GoError.wraps errConflict e = true) := by
  obtain ⟨hsends,ans,hreply,hrefusal,_⟩ := performs_spec h hs hp
  rw [serve_stale hsends.1 hlease hstale] at hreply
  obtain ⟨htable,hans⟩ := reply_refused hreply
  refine ⟨htable,fun hdone => ?_⟩
  have hrest := hrefusal (hans hdone)
  obtain ⟨ms,rfl⟩ | rfl := addresses_lease hsends.1 hlease
  · exact ⟨_,hrest,wraps_coordinationError _ _⟩
  · exact ⟨_,hrest,wraps_coordinationError _ _⟩

theorem milliseconds_of_pos {ttl : Int} (h : 0 < ttl) : milliseconds ttl = ttl/1000000 := by
  rw [milliseconds,millisecond,Int.tdiv_eq_ediv_of_nonneg (Int.le_of_lt h)]

theorem milliseconds_pos_iff {ttl : Int} (h : 0 < ttl) : 0 < milliseconds ttl ↔ millisecond ≤ ttl := by
  rw [milliseconds_of_pos h,millisecond]
  omega

theorem renewed_table {t t' : Client} {cmd : Command} {o : Outcome} {lease : LockLease}
    {ttl : Duration} (h : Tracked (provider keyPrefix) (sends keyPrefix) c)
    (hs : (provider keyPrefix).locks.step c a = some c') (hp : Performs c a c' t t' cmd o)
    (hcall : t.call = .renew (some lease) ttl) :
    0 < ttl ∧ (Succeeds t'.rest ↔ o = .done ∧
      (provider keyPrefix).holds c.shared lease.key (trimSpace lease.token) = true) ∧
    (Succeeds t'.rest → c'.shared.table (fullKey keyPrefix lease.key) =
      (pexpireAt c.shared.clock (milliseconds ttl)).map fun ms => ⟨trimSpace lease.token,ms⟩) := by
  obtain ⟨hsends,ans,hreply,_,hsucceeds⟩ := performs_spec h hs hp
  rw [hcall] at hsends
  obtain ⟨hpos,ms,rfl⟩ := addresses_renew hsends.1
  obtain ⟨_,rfl⟩ := hsends
  have hfst : ((provider keyPrefix).serve c.shared.clock c.shared.table (.extend
      (fullKey keyPrefix lease.key) (trimSpace lease.token) (milliseconds ttl))).1 =
      (provider keyPrefix).holds c.shared lease.key (trimSpace lease.token) := extend_fst _
  rw [hfst] at hsucceeds
  refine ⟨hpos,hsucceeds,fun hsuccess => ?_⟩
  obtain ⟨rfl,hheld⟩ := hsucceeds.mp hsuccess
  have hserve : (provider keyPrefix).serve c.shared.clock c.shared.table
      (.extend (fullKey keyPrefix lease.key) (trimSpace lease.token) (milliseconds ttl)) =
      (true,Function.update c.shared.table (fullKey keyPrefix lease.key)
        ((pexpireAt c.shared.clock (milliseconds ttl)).map fun ms => ⟨trimSpace lease.token,ms⟩)) :=
    extend_of_current hheld _
  rw [reply_done hreply,hserve]
  simp only [Function.update_self]

theorem kept_iff (h : Tracked (provider keyPrefix) (sends keyPrefix) c) :
    (∀ c', (provider keyPrefix).locks.step c a = some c' → ∀ t t' cmd o lease ttl,
      Performs c a c' t t' cmd o → t.call = .renew (some lease) ttl → Succeeds t'.rest →
      ∃ row, c'.shared.table (fullKey keyPrefix lease.key) = some row ∧
        row.token = trimSpace lease.token ∧
        unixMilli c.shared.clock+max 1 (milliseconds ttl) ≤ row.expiresAt) ↔
    RenewsWhole keyPrefix c a := by
  rw [renewsWhole_iff]
  constructor
  · intro hkept t cmd lease ttl hnext hcall hheld
    obtain ⟨c',t',hs,hp⟩ := performs_done (p := provider keyPrefix) hnext
    obtain ⟨hpos,hgranted,htable⟩ := renewed_table h hs hp hcall
    have hsuccess := hgranted.mpr ⟨rfl,hheld⟩
    obtain ⟨row,hrow,_⟩ := hkept c' hs t t' cmd .done lease ttl hp hcall hsuccess
    rw [htable hsuccess] at hrow
    rw [← milliseconds_pos_iff hpos]
    by_contra hle
    rw [pexpireAt,if_pos (Int.not_lt.mp hle)] at hrow
    cases hrow
  · intro hwhole c' hs t t' cmd o lease ttl hp hcall hsuccess
    obtain ⟨hpos,hgranted,htable⟩ := renewed_table h hs hp hcall
    obtain ⟨rfl,hheld⟩ := hgranted.mp hsuccess
    have hms := (milliseconds_pos_iff hpos).mpr (hwhole t cmd lease ttl hp.now hcall hheld)
    rw [htable hsuccess,pexpireAt,if_neg (Int.not_le.mpr hms)]
    refine ⟨_,rfl,rfl,?_⟩
    have hone : max 1 (milliseconds ttl) = milliseconds ttl := Int.max_eq_right hms
    exact Int.add_le_add_left (Int.le_of_eq hone) _

theorem renewals_keep_iff (keyPrefix : String) (s : Server) (acts : List Step) :
    (provider keyPrefix).locks.Along (fun c a => ∀ c', (provider keyPrefix).locks.step c a = some c' →
      Guarded keyPrefix c a c') acts ⟨s,[]⟩ ↔
    (provider keyPrefix).locks.Along (RenewsWhole keyPrefix) acts ⟨s,[]⟩ := by
  refine (provider keyPrefix).locks.along_congr
    (I := Tracked (provider keyPrefix) (sends keyPrefix)) ?_ ?_ (tracked_init s)
  · intro c a h
    rw [← kept_iff h]
    refine forall₂_congr fun c' hs => ⟨Guarded.kept,fun hkept => ?_⟩
    have h' := tracked_step (ready keyPrefix) h hs
    refine ⟨exclusive_of_tracked h',?_,?_,returns_of_tracked h',hkept⟩
    · exact fun t t' cmd o lease hp hlease hstale => refused_unchanged h hs hp hlease hstale
    · intro t ht lease hrest
      have hready := (h'.ready t ht).now
      rw [hrest] at hready
      exact hready.2
  · exact fun c a c' h _ hs => tracked_step (ready keyPrefix) h hs

def shortRenewal : List Step :=
  [.start (.acquire "nightly" second),.exec 0 (.token tokenA),.exec 0 .done,.exec 0 .done,
    .start (.renew (some leaseA) 500000)]

theorem short_renewal_deletes_lock :
    ((provider defaultRedisPrefix).locks.run (shortRenewal ++ ([.exec 1 .done,.exec 1 .done] : List Step))
      ⟨⟨0,fun _ => none,[]⟩,[]⟩).map (fun c =>
        (c.shared.table (fullKey defaultRedisPrefix "nightly"),c.threads.map fun t =>
          match t.rest with
          | .ret r => some r
          | _ => none)) =
      some (none,[some (.acquired leaseA),some (.renewed ⟨"nightly",tokenA.text,500000⟩)]) ∧
    ¬ (provider defaultRedisPrefix).locks.Along (fun c a => ∀ c',
      (provider defaultRedisPrefix).locks.step c a = some c' → Guarded defaultRedisPrefix c a c')
      (shortRenewal ++ ([.exec 1 .done,.exec 1 .done] : List Step)) ⟨⟨0,fun _ => none,[]⟩,[]⟩ := by
  refine ⟨by decide +kernel,fun h => ?_⟩
  have hshort : ((provider defaultRedisPrefix).locks.run shortRenewal
      ⟨⟨0,fun _ => none,[]⟩,[]⟩).map (fun c => renewsWhole defaultRedisPrefix c (.exec 1 .done)) =
      some false := by decide +kernel
  rw [Option.map_eq_some_iff] at hshort
  obtain ⟨c,hrun,hfalse⟩ := hshort
  have htracked : Tracked (provider defaultRedisPrefix) (sends defaultRedisPrefix) c :=
    (provider defaultRedisPrefix).locks.run_invariant (P := fun _ _ => True)
      (fun c a c' h _ hs => tracked_step (ready defaultRedisPrefix) h hs) (tracked_init _)
      (Machine.along_true _ _ _) hrun
  have hguarded := (provider defaultRedisPrefix).locks.along_at h hrun
  have hwhole : renewsWhole defaultRedisPrefix c (.exec 1 .done) = true :=
    (kept_iff htracked).mp fun c' hs => (hguarded c' hs).kept
  rw [hfalse] at hwhole
  cases hwhole

end Safety

end Nimburion.Coordination.RedisLock
