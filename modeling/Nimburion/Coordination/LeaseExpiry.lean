import Nimburion.Coordination.RedisLock
import Nimburion.Coordination.PostgresLock

namespace Nimburion.Coordination
open Interaction GoText GoTime LeaseTable

-- one call against a server of its own, where `delays n` passes before the call's step n
structure Timed where
  clock : Time
  table : Locks
  token : Token
  delays : ℕ → ℕ

namespace Timed

def pass (s : Timed) : Timed :=
  { s with clock := s.clock+s.delays 0, delays := fun n => s.delays (n+1) }

def serve (p : Provider) (s : Timed) (cmd : Command) : Timed :=
  { s with table := (p.serve s.clock s.table cmd).2 }

def handle (p : Provider) (s : Timed) : (op : Op) → Ans op × Timed
  | .now => (s.pass.clock,s.pass)
  | .randomToken => (s.pass.token,s.pass)
  | .run cmd => (.rows (p.serve s.pass.clock s.pass.table cmd).1,s.pass.serve p cmd)

def time (s : Timed) : ℕ → Time
  | 0 => s.clock+s.delays 0
  | n+1 => s.time n+s.delays (n+1)

end Timed

-- the lease the caller is left with ends no later than the row the server keeps for it
def Trusted (p : Provider) (unit : Int) (r : Except GoError Result × Timed) : Prop :=
  ∀ lease, r.1 = .ok (.acquired lease) ∨ r.1 = .ok (.renewed lease) →
    ∃ row, r.2.table (p.storedKey lease.key) = some row ∧ row.token = trimSpace lease.token ∧
      lease.expireAt ≤ row.expiresAt*unit

def call (p : Provider) (s : Timed) (c : Call) : Except GoError Result × Timed :=
  Prog.eval (Timed.handle p) (p.program c) s

section Trust

variable {p : Provider} {unit : Int} {s : Timed}

theorem trusted_of_error (e : GoError) : Trusted p unit (.error e,s) := by
  rintro lease (h | h) <;> cases h

theorem trusted_notAcquired : Trusted p unit (.ok .notAcquired,s) := by
  rintro lease (h | h) <;> cases h

theorem trusted_released : Trusted p unit (.ok .released,s) := by
  rintro lease (h | h) <;> cases h

theorem trusted_acquired_iff (lease : LockLease) : Trusted p unit (.ok (.acquired lease),s) ↔
    ∃ row, s.table (p.storedKey lease.key) = some row ∧ row.token = trimSpace lease.token ∧
      lease.expireAt ≤ row.expiresAt*unit := by
  refine ⟨fun h => h lease (.inl rfl),fun h => ?_⟩
  rintro other (heq | heq) <;> cases heq
  exact h

theorem trusted_renewed_iff (lease : LockLease) : Trusted p unit (.ok (.renewed lease),s) ↔
    ∃ row, s.table (p.storedKey lease.key) = some row ∧ row.token = trimSpace lease.token ∧
      lease.expireAt ≤ row.expiresAt*unit := by
  refine ⟨fun h => h lease (.inr rfl),fun h => ?_⟩
  rintro other (heq | heq) <;> cases heq
  exact h

theorem exists_row_iff {tab : Locks} {k token : String} {given : Option Int} {e : Int} :
    (∃ row, Function.update tab k (given.map fun t => ⟨token,t⟩) k = some row ∧
      row.token = token ∧ e ≤ row.expiresAt*unit) ↔ ∃ t, given = some t ∧ e ≤ t*unit := by
  cases given <;> simp

end Trust

namespace RedisLock

-- step 1 of Acquire is the SET and step 2 the clock read, step 0 of Renew is the script and
-- step 1 the clock read
def OnTime (keyPrefix : String) (s : Timed) : Call → Prop
  | .acquire key ttl => trimSpace key ≠ "" → 0 < ttl →
      live (alive (s.time 1)) s.table (fullKey keyPrefix key) = none →
      if ttl < millisecond then s.delays 2+s.time 1%millisecond+ttl ≤ millisecond
      else s.delays 2 = 0 ∧ s.time 1%millisecond = 0 ∧ ttl%millisecond = 0
  | .renew (some lease) ttl => trimSpace lease.key ≠ "" → trimSpace lease.token ≠ "" → 0 < ttl →
      current (alive (s.time 0)) s.table (fullKey keyPrefix lease.key) (trimSpace lease.token) = true →
      millisecond ≤ ttl ∧ s.delays 1 = 0 ∧ s.time 0%millisecond = 0 ∧ ttl%millisecond = 0
  | _ => True

end RedisLock

namespace PostgresLock

-- step 1 of Acquire reads the clock, steps 0 and 2 of Renew do
def OnTime (column : Time → Time) (s : Timed) : Call → Prop
  | .acquire key ttl => trimSpace key ≠ "" → 0 < ttl →
      live (alive (s.time 2)) s.table (trimSpace key) = none →
      s.time 1+ttl ≤ column (s.time 1+ttl)
  | .renew (some lease) ttl => trimSpace lease.key ≠ "" → trimSpace lease.token ≠ "" → 0 < ttl →
      current (alive (s.time 1)) s.table (trimSpace lease.key) (trimSpace lease.token) = true →
      (s.delays 1+s.delays 2 : Int) ≤ column (s.time 0+ttl)-(s.time 0+ttl)
  | _ => True

end PostgresLock

namespace RedisLock

theorem claimed_expiry_iff {t ttl : Int} (n : ℕ) (h : 0 < ttl) :
    t+n+ttl ≤ (unixMilli t+setArgsTTL ttl)*millisecond ↔
      if ttl < millisecond then n+t%millisecond+ttl ≤ millisecond
      else n = 0 ∧ t%millisecond = 0 ∧ ttl%millisecond = 0 := by
  by_cases hsub : ttl < millisecond
  · rw [if_pos hsub,setArgsTTL,if_pos ⟨h,hsub⟩]
    simp only [unixMilli,millisecond]
    omega
  · rw [if_neg hsub,setArgsTTL,if_neg fun h => hsub h.2]
    rw [Int.tdiv_eq_ediv_of_nonneg (Int.le_of_lt h)]
    simp only [unixMilli,millisecond] at hsub ⊢
    omega

theorem extended_expiry_iff {t ttl : Int} (n : ℕ) (h : 0 < ttl) :
    (∃ ms, pexpireAt t (milliseconds ttl) = some ms ∧ t+n+ttl ≤ ms*millisecond) ↔
      millisecond ≤ ttl ∧ n = 0 ∧ t%millisecond = 0 ∧ ttl%millisecond = 0 := by
  simp only [pexpireAt,milliseconds_of_pos h,unixMilli,millisecond]
  split_ifs with hms
  · simp only [false_and,exists_false,false_iff]
    omega
  · simp only [Option.some.injEq,exists_eq_left']
    omega

theorem acquire_trusted_iff (keyPrefix : String) (s : Timed) (key : String) (ttl : Duration) :
    Trusted (provider keyPrefix) millisecond (call (provider keyPrefix) s (.acquire key ttl)) ↔
      OnTime keyPrefix s (.acquire key ttl) := by
  simp only [call,Provider.program,provider,acquire]
  split_ifs with hkey httl
  · exact iff_of_true (trusted_of_error _) fun h => absurd hkey h
  · exact iff_of_true (trusted_of_error _) fun _ h => absurd httl (Int.not_le.mpr h)
  · have hpos := Int.not_le.mp httl
    simp only [OnTime,ne_eq,hkey,not_false_eq_true,true_imp_iff,hpos]
    cases hlive : live (alive (s.time 1)) s.table (fullKey keyPrefix key) with
    | some row =>
      have hheld : (live (alive (s.time 1)) s.table (fullKey keyPrefix key)).isSome = true := by
        rw [hlive]
        rfl
      have hserve : serve s.pass.pass.clock s.pass.pass.table
          (.claim (fullKey keyPrefix (trimSpace key)) s.pass.token.text (setArgsTTL ttl)) =
          (false,s.table) := by
        rw [fullKey_trimSpace]
        exact claim_of_live hheld
      simp only [Prog.eval_bind,Prog.eval_perform,Timed.handle,hserve]
      exact iff_of_true trusted_notAcquired fun h => absurd h (by simp)
    | none =>
      have hserve : serve s.pass.pass.clock s.pass.pass.table
          (.claim (fullKey keyPrefix (trimSpace key)) s.pass.token.text (setArgsTTL ttl)) =
          (true,Function.update s.table (fullKey keyPrefix key)
            ((some (unixMilli (s.time 1)+setArgsTTL ttl)).map fun t => ⟨s.token.text,t⟩)) := by
        rw [fullKey_trimSpace]
        exact claim_of_free hlive
      simp only [Prog.eval_bind,Prog.eval_perform,Timed.handle,Timed.serve,hserve]
      refine (trusted_acquired_iff _).trans ?_
      simp only [Timed.pass,s.token.plain.1,fullKey_trimSpace]
      rw [exists_row_iff]
      simp only [Option.some.injEq,exists_eq_left',true_imp_iff]
      exact claimed_expiry_iff (s.delays 2) hpos

theorem renew_trusted_iff (keyPrefix : String) (s : Timed) (lease : LockLease) (ttl : Duration) :
    Trusted (provider keyPrefix) millisecond
      (call (provider keyPrefix) s (.renew (some lease) ttl)) ↔
      OnTime keyPrefix s (.renew (some lease) ttl) := by
  simp only [call,Provider.program,provider,renew]
  split_ifs with httl hblank
  · exact iff_of_true (trusted_of_error _) fun _ _ h => absurd httl (Int.not_le.mpr h)
  · refine iff_of_true (trusted_of_error _) fun hkey htoken => ?_
    exact absurd hblank (not_or.mpr ⟨hkey,htoken⟩)
  · have hpos := Int.not_le.mp httl
    rw [not_or] at hblank
    simp only [OnTime,ne_eq,hblank.1,hblank.2,not_false_eq_true,true_imp_iff,hpos]
    cases hheld : current (alive (s.time 0)) s.table (fullKey keyPrefix lease.key)
      (trimSpace lease.token) with
    | false =>
      have hserve : serve s.pass.clock s.pass.table (.extend (fullKey keyPrefix (trimSpace lease.key))
          (trimSpace lease.token) (milliseconds ttl)) = (false,s.table) := by
        rw [fullKey_trimSpace]
        exact extend_of_stale hheld _
      simp only [Prog.eval_bind,Prog.eval_perform,Timed.handle,hserve]
      exact iff_of_true (trusted_of_error _) fun h => absurd h (by simp)
    | true =>
      have hserve : serve s.pass.clock s.pass.table (.extend (fullKey keyPrefix (trimSpace lease.key))
          (trimSpace lease.token) (milliseconds ttl)) =
          (true,Function.update s.table (fullKey keyPrefix lease.key)
            ((pexpireAt (s.time 0) (milliseconds ttl)).map fun t => ⟨trimSpace lease.token,t⟩)) := by
        rw [fullKey_trimSpace]
        exact extend_of_current hheld _
      simp only [Prog.eval_bind,Prog.eval_perform,Timed.handle,Timed.serve,hserve]
      refine (trusted_renewed_iff _).trans ?_
      simp only [Timed.pass]
      rw [exists_row_iff,true_imp_iff]
      exact extended_expiry_iff (s.delays 1) hpos

theorem release_trusted (keyPrefix : String) (s : Timed) (lease : Option LockLease) :
    Trusted (provider keyPrefix) millisecond (call (provider keyPrefix) s (.release lease)) := by
  cases lease with
  | none => exact trusted_of_error _
  | some lease =>
    simp only [call,Provider.program,provider,release]
    split_ifs with hblank
    · exact trusted_of_error _
    · simp only [Prog.eval_bind,Prog.eval_perform,Timed.handle]
      split
      · exact trusted_of_error _
      · exact trusted_of_error _
      · exact trusted_of_error _
      · exact trusted_released

end RedisLock

namespace PostgresLock

theorem renewed_expiry_iff (t ttl n m kept : Int) :
    t+n+m+ttl ≤ kept ↔ n+m ≤ kept-(t+ttl) := by
  omega

theorem acquire_trusted_iff (column : Time → Time) (s : Timed) (key : String) (ttl : Duration) :
    Trusted (provider column) 1 (call (provider column) s (.acquire key ttl)) ↔
      OnTime column s (.acquire key ttl) := by
  simp only [call,Provider.program,provider,acquire]
  split_ifs with hkey httl
  · exact iff_of_true (trusted_of_error _) fun h => absurd hkey h
  · exact iff_of_true (trusted_of_error _) fun _ h => absurd httl (Int.not_le.mpr h)
  · have hpos := Int.not_le.mp httl
    simp only [OnTime,ne_eq,hkey,not_false_eq_true,true_imp_iff,hpos]
    cases hlive : live (alive (s.time 2)) s.table (trimSpace key) with
    | some row =>
      have hheld : (live (alive (s.time 2)) s.table (trimSpace key)).isSome = true := by
        rw [hlive]
        rfl
      have hserve : serve column s.pass.pass.pass.clock s.pass.pass.pass.table
          (.claim (trimSpace key) s.pass.token.text (s.pass.pass.clock+ttl)) = (false,s.table) :=
        claim_of_live hheld
      simp only [Prog.eval_bind,Prog.eval_perform,Timed.handle,hserve]
      exact iff_of_true trusted_notAcquired fun h => absurd h (by simp)
    | none =>
      have hserve : serve column s.pass.pass.pass.clock s.pass.pass.pass.table
          (.claim (trimSpace key) s.pass.token.text (s.pass.pass.clock+ttl)) =
          (true,Function.update s.table (trimSpace key)
            ((some (column (s.time 1+ttl))).map fun t => ⟨s.token.text,t⟩)) := claim_of_free hlive
      simp only [Prog.eval_bind,Prog.eval_perform,Timed.handle,Timed.serve,hserve]
      refine (trusted_acquired_iff _).trans ?_
      simp only [Timed.pass,s.token.plain.1,trimSpace_trimSpace]
      rw [exists_row_iff]
      simp only [Option.some.injEq,exists_eq_left',true_imp_iff,Int.mul_one]
      exact Iff.rfl

theorem renew_trusted_iff (column : Time → Time) (s : Timed) (lease : LockLease) (ttl : Duration) :
    Trusted (provider column) 1 (call (provider column) s (.renew (some lease) ttl)) ↔
      OnTime column s (.renew (some lease) ttl) := by
  simp only [call,Provider.program,provider,renew]
  split_ifs with httl hblank
  · exact iff_of_true (trusted_of_error _) fun _ _ h => absurd httl (Int.not_le.mpr h)
  · refine iff_of_true (trusted_of_error _) fun hkey htoken => ?_
    exact absurd hblank (not_or.mpr ⟨hkey,htoken⟩)
  · have hpos := Int.not_le.mp httl
    rw [not_or] at hblank
    simp only [OnTime,ne_eq,hblank.1,hblank.2,not_false_eq_true,true_imp_iff,hpos]
    cases hheld : current (alive (s.time 1)) s.table (trimSpace lease.key)
      (trimSpace lease.token) with
    | false =>
      have hserve : serve column s.pass.pass.clock s.pass.pass.table (.extend (trimSpace lease.key)
          (trimSpace lease.token) (s.pass.clock+ttl)) = (false,s.table) := extend_of_stale hheld _
      simp only [Prog.eval_bind,Prog.eval_perform,Timed.handle,hserve]
      exact iff_of_true (trusted_of_error _) fun h => absurd h (by simp)
    | true =>
      have hserve : serve column s.pass.pass.clock s.pass.pass.table (.extend (trimSpace lease.key)
          (trimSpace lease.token) (s.pass.clock+ttl)) =
          (true,Function.update s.table (trimSpace lease.key)
            ((some (column (s.time 0+ttl))).map fun t => ⟨trimSpace lease.token,t⟩)) :=
        extend_of_current hheld _
      simp only [Prog.eval_bind,Prog.eval_perform,Timed.handle,Timed.serve,hserve]
      refine (trusted_renewed_iff _).trans ?_
      simp only [Timed.pass]
      rw [exists_row_iff]
      simp only [Option.some.injEq,exists_eq_left',true_imp_iff,Int.mul_one]
      change s.time 0+s.delays 1+s.delays 2+ttl ≤ _ ↔ _
      exact renewed_expiry_iff _ _ _ _ _

theorem release_trusted (column : Time → Time) (s : Timed) (lease : Option LockLease) :
    Trusted (provider column) 1 (call (provider column) s (.release lease)) := by
  cases lease with
  | none => exact trusted_of_error _
  | some lease =>
    simp only [call,Provider.program,provider,release]
    split_ifs with hblank
    · exact trusted_of_error _
    · simp only [Prog.eval_bind,Prog.eval_perform,Timed.handle]
      split
      · exact trusted_of_error _
      · exact trusted_of_error _
      · exact trusted_of_error _
      · exact trusted_released

end PostgresLock

theorem lease_trusted_iff (keyPrefix : String) (column : Time → Time) (s : Timed) (c : Call) :
    (Trusted (RedisLock.provider keyPrefix) millisecond (call (RedisLock.provider keyPrefix) s c) ↔
      RedisLock.OnTime keyPrefix s c) ∧
    (Trusted (PostgresLock.provider column) 1 (call (PostgresLock.provider column) s c) ↔
      PostgresLock.OnTime column s c) := by
  cases c with
  | acquire key ttl =>
    exact ⟨RedisLock.acquire_trusted_iff _ _ _ _,PostgresLock.acquire_trusted_iff _ _ _ _⟩
  | renew lease ttl =>
    cases lease with
    | none => exact ⟨iff_of_true (trusted_of_error _) trivial,iff_of_true (trusted_of_error _) trivial⟩
    | some lease =>
      exact ⟨RedisLock.renew_trusted_iff _ _ _ _,PostgresLock.renew_trusted_iff _ _ _ _⟩
  | release lease =>
    exact ⟨iff_of_true (RedisLock.release_trusted _ _ _) trivial,
      iff_of_true (PostgresLock.release_trusted _ _ _) trivial⟩

def heldA (column : Time → Time) : Timed :=
  ⟨0,fun key => if key = "nightly" then some ⟨"a1",column 1000000000⟩ else none,tokenA,
    fun n => if n = 2 then 1 else 0⟩

def freeA : Timed := ⟨0,fun _ => none,tokenA,fun n => if n = 2 then 1 else 0⟩

-- one nanosecond passes after the server's write and before the clock is read again
theorem late_clock_read_overstates_lease :
    ¬ Trusted (RedisLock.provider RedisLock.defaultRedisPrefix) millisecond
      (call (RedisLock.provider RedisLock.defaultRedisPrefix) freeA (.acquire "nightly" second)) ∧
    ¬ Trusted (PostgresLock.provider id) 1
      (call (PostgresLock.provider id) (heldA id) (.renew (some leaseA) second)) := by
  rw [RedisLock.acquire_trusted_iff,PostgresLock.renew_trusted_iff]
  constructor
  · intro h
    exact absurd (h (by decide +kernel) (by decide) rfl) (by decide)
  · intro h
    exact absurd (h (by decide +kernel) (by decide +kernel) (by decide) (by decide +kernel)) (by decide)

end Nimburion.Coordination
