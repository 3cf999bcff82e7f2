import Nimburion.Coordination.Lock

namespace Nimburion.Coordination.PostgresLock
open Interaction GoText GoTime LeaseTable

def acquire (key : String) (ttl : Duration) : M Result :=
  let key := trimSpace key
  if key = "" then Prog.fail (coordinationError errInvalidArgument "lock key is required")
  else if ttl ≤ 0 then Prog.fail (coordinationError errInvalidArgument "ttl must be > 0")
  else do
    let token ← Prog.perform Op.randomToken
    let now ← Prog.perform Op.now
    let expiresAt := now+ttl
    let acquired ← Prog.perform (Op.run (.claim key token.text expiresAt))
    match acquired with
    | .failed e | .unread e =>
        Prog.fail (.join (coordinationError errRetryable "acquire lock failed") e)
    | .rows false => pure .notAcquired
    | .rows true => pure (.acquired ⟨key,token.text,expiresAt⟩)

def renew (lease : Option LockLease) (ttl : Duration) : M Result :=
  match lease with
  | none => Prog.fail (coordinationError errInvalidArgument "lease is required")
  | some lease =>
      let key := trimSpace lease.key
      let token := trimSpace lease.token
      if ttl ≤ 0 then Prog.fail (coordinationError errInvalidArgument "ttl must be > 0")
      else if key = "" ∨ token = "" then
        Prog.fail (coordinationError errInvalidArgument "lease key and token are required")
      else do
        let now ← Prog.perform Op.now
        let affected ← Prog.perform (Op.run (.extend key token (now+ttl)))
        match affected with
        | .failed e => Prog.fail (.join (coordinationError errRetryable "renew lock failed") e)
        | .unread e =>
            Prog.fail (.join (coordinationError errRetryable "renew lock rows affected failed") e)
        | .rows false => Prog.fail (coordinationError errConflict "lock renew rejected")
        | .rows true => do
            let now ← Prog.perform Op.now
            pure (.renewed { lease with expireAt := now+ttl })

def release (lease : Option LockLease) : M Result :=
  match lease with
  | none => Prog.fail (coordinationError errInvalidArgument "lease is required")
  | some lease =>
      let key := trimSpace lease.key
      let token := trimSpace lease.token
      if key = "" ∨ token = "" then
        Prog.fail (coordinationError errInvalidArgument "lease key and token are required")
      else do
        let affected ← Prog.perform (Op.run (.drop key token))
        match affected with
        | .failed e => Prog.fail (.join (coordinationError errRetryable "release lock failed") e)
        | .unread e =>
            Prog.fail (.join (coordinationError errRetryable "release lock rows affected failed") e)
        | .rows false => Prog.fail (coordinationError errConflict "lock release rejected")
        | .rows true => pure .released

def alive (now : Time) (row : Row String) : Bool := now < row.expiresAt

-- `column` is what a TIMESTAMPTZ column keeps of a time
def serve (column : Time → Time) (now : Time) (tab : Locks) : Command → Bool × Locks
  | .claim key token expiresAt => claim (alive now) tab key token (column expiresAt)
  | .extend key token expiresAt => extend (alive now) tab key token (some (column expiresAt))
  -- the DELETE asks for the token only, not for the expiry
  | .drop key token => drop (fun _ => true) tab key token

def provider (column : Time → Time) : Provider where
  acquire := acquire
  renew := renew
  release := release
  storedKey := trimSpace
  alive := alive
  serve := serve column

theorem ready_acquire (key : String) (ttl : Duration) :
    Prog.Always (Ready (Addresses trimSpace) (.acquire key ttl)) [] (acquire key ttl) := by
  simp only [acquire,Prog.always_ite,Prog.always_fail,Prog.always_perform_bind]
  refine ⟨fun hkey => answers_rejected _ fun h => h.1 hkey,fun hkey => ⟨?_,fun httl => ?_⟩⟩
  · exact fun httl => answers_rejected _ fun h => absurd httl (Int.not_le.mpr h.2)
  · have hvalid : Call.Valid (.acquire key ttl) := ⟨hkey,Int.not_le.mp httl⟩
    refine ⟨trivial,fun token => ⟨trivial,fun now => ?_⟩⟩
    have hsends : Addresses trimSpace (.acquire key ttl)
        (.claim (trimSpace key) token.text (now+ttl)) := ⟨hvalid.2,rfl⟩
    refine ⟨ready_run hsends rfl ?_,?_⟩
    · exact succeeds_iff not_succeeds_notAcquired ⟨_,rfl,rfl⟩
        (fun _ => not_succeeds_fail _) (fun _ => not_succeeds_fail _)
    · rintro ((_ | _) | e | e)
      · exact (Prog.always_pure ..).mpr ⟨answers_decided hvalid hsends rfl trivial,trivial⟩
      · refine (Prog.always_pure ..).mpr ⟨answers_decided hvalid hsends rfl ⟨rfl,rfl⟩,token,?_,rfl⟩
        simp [drew]
      · exact ready_retryable _ hvalid hsends rfl (.inl rfl)
      · exact ready_retryable _ hvalid hsends rfl (.inr rfl)

theorem ready_renew (lease : Option LockLease) (ttl : Duration) :
    Prog.Always (Ready (Addresses trimSpace) (.renew lease ttl)) [] (renew lease ttl) := by
  cases lease with
  | none => exact (Prog.always_fail ..).mpr (answers_rejected _ fun h => h)
  | some lease =>
    simp only [renew,Prog.always_ite,Prog.always_fail,Prog.always_perform_bind]
    refine ⟨?_,fun httl => ⟨fun hblank => ?_,fun hblank => ?_⟩⟩
    · exact fun httl => answers_rejected _ fun h => absurd httl (Int.not_le.mpr h.1)
    · exact answers_rejected _ fun h => absurd hblank (not_or.mpr h.2)
    · have hvalid : Call.Valid (.renew (some lease) ttl) := ⟨Int.not_le.mp httl,not_or.mp hblank⟩
      refine ⟨trivial,fun now => ?_⟩
      have hsends : Addresses trimSpace (.renew (some lease) ttl)
          (.extend (trimSpace lease.key) (trimSpace lease.token) (now+ttl)) := ⟨hvalid.1,rfl,rfl⟩
      refine ⟨ready_run hsends rfl ?_,?_⟩
      · exact succeeds_iff (not_succeeds_fail _) (succeeds_now fun _ => ⟨_,rfl,rfl⟩)
          (fun _ => not_succeeds_fail _) (fun _ => not_succeeds_fail _)
      · rintro ((_ | _) | e | e)
        · exact ready_conflict _ hvalid hsends rfl fun _ h => h
        · refine (Prog.always_perform_bind ..).mpr ⟨trivial,fun later => (Prog.always_pure ..).mpr ?_⟩
          exact ⟨answers_decided hvalid hsends rfl ⟨rfl,rfl⟩,rfl⟩
        · exact ready_retryable _ hvalid hsends rfl (.inl rfl)
        · exact ready_retryable _ hvalid hsends rfl (.inr rfl)

theorem ready_release (lease : Option LockLease) :
    Prog.Always (Ready (Addresses trimSpace) (.release lease)) [] (release lease) := by
  cases lease with
  | none => exact (Prog.always_fail ..).mpr (answers_rejected _ fun h => h)
  | some lease =>
    simp only [release,Prog.always_ite,Prog.always_fail,Prog.always_perform_bind]
    refine ⟨fun hblank => answers_rejected _ fun h => absurd hblank (not_or.mpr h),fun hblank => ?_⟩
    have hvalid : Call.Valid (.release (some lease)) := not_or.mp hblank
    have hsends : Addresses trimSpace (.release (some lease))
        (.drop (trimSpace lease.key) (trimSpace lease.token)) := ⟨rfl,rfl⟩
    refine ⟨ready_run hsends rfl ?_,?_⟩
    · exact succeeds_iff (not_succeeds_fail _) ⟨_,rfl,rfl⟩
        (fun _ => not_succeeds_fail _) (fun _ => not_succeeds_fail _)
    · rintro ((_ | _) | e | e)
      · exact ready_conflict _ hvalid hsends rfl fun _ h => h
      · exact (Prog.always_pure ..).mpr ⟨answers_decided hvalid hsends rfl trivial,trivial⟩
      · exact ready_retryable _ hvalid hsends rfl (.inl rfl)
      · exact ready_retryable _ hvalid hsends rfl (.inr rfl)

theorem ready (column : Time → Time) (call : Call) :
    Prog.Always (Ready (Addresses trimSpace) call) [] ((provider column).program call) := by
  cases call with
  | acquire key ttl => simpa only [Provider.program,provider] using ready_acquire key ttl
  | renew lease ttl => simpa only [Provider.program,provider] using ready_renew lease ttl
  | release lease => simpa only [Provider.program,provider] using ready_release lease

section Safety

variable {column : Time → Time}

structure Exact (column : Time → Time) (c : Clients) (a : Step) (c' : Clients) : Prop where
  exclusive : Exclusive (provider column) c'
  returns : ∀ t ∈ c'.threads, Returns (Addresses trimSpace) t
  acquires : ∀ t t' cmd key ttl, Performs c a c' t t' cmd .done → t.call = .acquire key ttl →
    (Succeeds t'.rest ↔ ∀ row, c.shared.table (trimSpace key) = some row →
      row.expiresAt ≤ c.shared.clock)
  renews : ∀ t t' cmd lease ttl, Performs c a c' t t' cmd .done →
    t.call = .renew (some lease) ttl →
    (Succeeds t'.rest ↔ ∃ row, c.shared.table (trimSpace lease.key) = some row ∧
      row.token = trimSpace lease.token ∧ c.shared.clock < row.expiresAt)
  others : ∀ t t' cmd o lease, Performs c a c' t t' cmd o → leaseOf t.call = some lease →
    (∀ row, c.shared.table (trimSpace lease.key) = some row → row.token ≠ trimSpace lease.token) →
    c'.shared.table = c.shared.table

variable {c c' : Clients} {a : Step} {t t' : Client} {cmd : Command}

theorem live_eq_none_iff (now : Int) (tab : Locks) (key : String) :
    live (alive now) tab key = none ↔ ∀ row, tab key = some row → row.expiresAt ≤ now := by
  cases h : tab key <;> simp [live,h,alive,Option.filter_some]

theorem acquires_iff {key : String} {ttl : Duration}
    (h : Tracked (provider column) (Addresses trimSpace) c)
    (hs : (provider column).locks.step c a = some c') (hp : Performs c a c' t t' cmd .done)
    (hcall : t.call = .acquire key ttl) :
    Succeeds t'.rest ↔ ∀ row, c.shared.table (trimSpace key) = some row →
      row.expiresAt ≤ c.shared.clock := by
  obtain ⟨hsends,_,_,_,hsucceeds⟩ := performs_spec h hs hp
  rw [hcall] at hsends
  obtain ⟨token,deadline,rfl⟩ := addresses_acquire hsends
  have hfst : ((provider column).serve c.shared.clock c.shared.table
      (.claim (trimSpace key) token deadline)).1 = _ := claim_fst
  rw [hsucceeds,hfst,Option.isNone_iff_eq_none]
  simpa using live_eq_none_iff c.shared.clock c.shared.table (trimSpace key)

theorem renews_iff {lease : LockLease} {ttl : Duration}
    (h : Tracked (provider column) (Addresses trimSpace) c)
    (hs : (provider column).locks.step c a = some c') (hp : Performs c a c' t t' cmd .done)
    (hcall : t.call = .renew (some lease) ttl) :
    Succeeds t'.rest ↔ ∃ row, c.shared.table (trimSpace lease.key) = some row ∧
      row.token = trimSpace lease.token ∧ c.shared.clock < row.expiresAt := by
  obtain ⟨hsends,_,_,_,hsucceeds⟩ := performs_spec h hs hp
  rw [hcall] at hsends
  obtain ⟨_,deadline,rfl⟩ := addresses_renew hsends
  have hfst : ((provider column).serve c.shared.clock c.shared.table
      (.extend (trimSpace lease.key) (trimSpace lease.token) deadline)).1 = _ := extend_fst _
  rw [hsucceeds,hfst,current_iff]
  simp only [true_and,alive,decide_eq_true_eq]
  exact exists_congr fun row => and_congr_right fun _ => and_comm

theorem others_unchanged {o : Outcome} {lease : LockLease}
    (h : Tracked (provider column) (Addresses trimSpace) c)
    (hs : (provider column).locks.step c a = some c') (hp : Performs c a c' t t' cmd o)
    (hlease : leaseOf t.call = some lease)
    (hother : ∀ row, c.shared.table (trimSpace lease.key) = some row →
      row.token ≠ trimSpace lease.token) : c'.shared.table = c.shared.table := by
  obtain ⟨hsends,ans,hreply,_,_⟩ := performs_spec h hs hp
  have hstale : ∀ up : Row String → Bool,
      current up c.shared.table (trimSpace lease.key) (trimSpace lease.token) = false := by
    intro up
    rw [Bool.eq_false_iff,Ne,current_iff]
    rintro ⟨row,hrow,_,htoken⟩
    exact hother row hrow htoken
  have hserve : (provider column).serve c.shared.clock c.shared.table cmd =
      (false,c.shared.table) := by
    obtain ⟨deadline,rfl⟩ | rfl := addresses_lease hsends hlease
    · exact extend_of_stale (hstale _) _
    · exact drop_of_stale (hstale _)
  rw [hserve] at hreply
  exact (reply_refused hreply).1

theorem locks_exclusive_and_exact (column : Time → Time) (s : Server) (acts : List Step) :
    (provider column).locks.Along (fun c a => ∀ c', (provider column).locks.step c a = some c' →
      Exact column c a c') acts ⟨s,[]⟩ := by
  refine (provider column).locks.along_imp (P := fun _ _ => True)
    (I := Tracked (provider column) (Addresses trimSpace)) ?_ ?_ (tracked_init s)
    (Machine.along_true _ _ _)
  · intro c a h _ c' hs
    have h' := tracked_step (ready column) h hs
    exact ⟨exclusive_of_tracked h',returns_of_tracked h',
      fun _ _ _ _ _ hp hcall => acquires_iff h hs hp hcall,
      fun _ _ _ _ _ hp hcall => renews_iff h hs hp hcall,
      fun _ _ _ _ _ hp hlease hother => others_unchanged h hs hp hlease hother⟩
  · exact fun c a c' h _ hs => tracked_step (ready column) h hs

def tokenB : Token := ⟨"b2",by decide +kernel⟩

def tokenC : Token := ⟨"c3",by decide +kernel⟩

-- the second client is refused, gets the lock when the first one's renewed lease has run out, and
-- the first can neither renew nor release any more
def takeover : List Step :=
  [.start (.acquire "nightly" second),.exec 0 (.token tokenA),.exec 0 .done,.exec 0 .done,
    .start (.acquire "nightly" second),.exec 1 (.token tokenB),.exec 1 .done,.exec 1 .done,
    .env 500000000,.start (.renew (some leaseA) second),.exec 2 .done,.exec 2 .done,.exec 2 .done,
    .env 1000000000,.start (.acquire " nightly" second),.exec 3 (.token tokenC),
    .exec 3 .done,.exec 3 .done,.start (.renew (some leaseA) second),.exec 4 .done,.exec 4 .done,
    .start (.release (some leaseA)),.exec 5 .done]

def returned (t : Client) : Option (Except GoError Result) :=
  match t.rest with
  | .ret r => some (.ok r)
  | .fail e => some (.error e)
  | .call _ _ => none

theorem expired_lease_taken_over :
    ((provider id).locks.run takeover ⟨⟨0,fun _ => none,[]⟩,[]⟩).map (fun c =>
        (c.shared.table "nightly",c.threads.map returned)) =
      some (some ⟨"c3",2500000000⟩,
        [some (.ok (.acquired leaseA)),some (.ok .notAcquired),
          some (.ok (.renewed ⟨"nightly","a1",1500000000⟩)),
          some (.ok (.acquired ⟨"nightly","c3",2500000000⟩)),
          some (.error (coordinationError errConflict "lock renew rejected")),
          some (.error (coordinationError errConflict "lock release rejected"))]) ∧
    (provider id).locks.Along (fun c a => ∀ c', (provider id).locks.step c a = some c' →
      Exact id c a c') takeover ⟨⟨0,fun _ => none,[]⟩,[]⟩ :=
  ⟨by decide +kernel,locks_exclusive_and_exact id _ _⟩

end Safety

end Nimburion.Coordination.PostgresLock
