import Nimburion.Errors
import Nimburion.Lib.Interaction

namespace Nimburion.EventBus.AggregateVersion
open Interaction

inductive VersionStatus where
  | ok
  | duplicate
  | outOfOrder
  | gap
  deriving DecidableEq, Repr

structure VersionCheck where
  status : VersionStatus
  expected : Int64
  received : Int64
  gapSize : Int64
  deriving DecidableEq, Repr

def validateAggregateVersion (lastSeenVersion receivedVersion : Int64) : VersionCheck :=
  let expected := lastSeenVersion+1
  if receivedVersion = expected then ⟨.ok,expected,receivedVersion,0⟩
  else if receivedVersion = lastSeenVersion then ⟨.duplicate,expected,receivedVersion,0⟩
  else if receivedVersion < lastSeenVersion then ⟨.outOfOrder,expected,receivedVersion,0⟩
  else ⟨.gap,expected,receivedVersion,receivedVersion-expected⟩

inductive Op where
  | getLastSeenVersion (tenantID aggregateID : String)
  | setLastSeenVersion (tenantID aggregateID : String) (version : Int64)
  deriving DecidableEq, Repr

abbrev Ans : Op → Type
  | .getLastSeenVersion .. => Except GoError Int64
  | .setLastSeenVersion .. => Except GoError Unit

abbrev M := Prog Op Ans GoError

def checkAndAdvance (tenantID aggregateID : String) (receivedVersion : Int64) : M VersionCheck :=
  if tenantID = "" then Prog.fail (.text "tenant id is required")
  else if aggregateID = "" then Prog.fail (.text "aggregate id is required")
  else if receivedVersion < 1 then Prog.fail (.text "received version must be >= 1")
  else do
    let loaded ← Prog.perform (Op.getLastSeenVersion tenantID aggregateID)
    match loaded with
    | .error e => Prog.fail (.wrapped "load last seen version failed: " e)
    | .ok lastSeen =>
        let check := validateAggregateVersion lastSeen receivedVersion
        if check.status ≠ .ok then pure check
        else do
          let persisted ← Prog.perform (Op.setLastSeenVersion tenantID aggregateID receivedVersion)
          match persisted with
          | .error e => Prog.fail (.wrapped "persist last seen version failed: " e)
          | .ok _ => pure check

structure Call where
  tenantID : String
  aggregateID : String
  receivedVersion : Int64
  deriving DecidableEq, Repr

abbrev Store := String → String → Int64

def Store.set (s : Store) (tenantID aggregateID : String) (version : Int64) : Store :=
  fun tenant aggregate =>
    if tenant = tenantID ∧ aggregate = aggregateID then version else s tenant aggregate

inductive Outcome where
  | done
  | lostRequest (e : GoError)
  | lostReply (e : GoError)
  deriving DecidableEq, Repr

def exec (s : Store) (op : Op) (o : Outcome) : Option (Ans op × Store) :=
  match op with
  | .getLastSeenVersion tenantID aggregateID => match o with
      | .done => some (.ok (s tenantID aggregateID),s)
      | .lostRequest e | .lostReply e => some (.error e,s)
  | .setLastSeenVersion tenantID aggregateID version => match o with
      | .done => some (.ok (),s.set tenantID aggregateID version)
      | .lostRequest e => some (.error e,s)
      | .lostReply e => some (.error e,s.set tenantID aggregateID version)

abbrev Trace := List (Event Ans)

abbrev Calls := Config Ans GoError Store Call VersionCheck

abbrev Tracked := Thread Ans GoError Call VersionCheck

abbrev Step := Action Call Outcome Empty

def tracker : Machine Ans GoError Store Call VersionCheck Outcome Empty where
  program := fun c => checkAndAdvance c.tenantID c.aggregateID c.receivedVersion
  exec := exec
  env := fun s _ => s

def accepted (call : Call) (t : Tracked) : Bool :=
  decide (t.call = call) && match t.rest with
    | .ret check => decide (check.status = .ok)
    | _ => false

structure Monotone (c c' : Calls) : Prop where
  advances : ∀ tenantID aggregateID, c.shared tenantID aggregateID ≤ c'.shared tenantID aggregateID
  once : ∀ call, c'.threads.countP (accepted call) ≤ 1

def Outcome.reaches : Outcome → Bool
  | .lostRequest _ => false
  | _ => true

-- a write that reaches the store finds there the version its call has read
def uninterrupted (c : Calls) (a : Step) : Bool :=
  match c.next a with
  | some (_,.setLastSeenVersion tenantID aggregateID version,o) =>
      !o.reaches || c.shared tenantID aggregateID+1 = version
  | _ => true

def Uninterrupted (c : Calls) (a : Step) : Prop := uninterrupted c a = true

instance (c : Calls) (a : Step) : Decidable (Uninterrupted c a) :=
  inferInstanceAs (Decidable (uninterrupted c a = true))

def isPersisted : Event Ans → Bool
  | ⟨.setLastSeenVersion ..,.ok _⟩ => true
  | _ => false

def persistedBy (call : Call) (t : Tracked) : Bool :=
  decide (t.call = call) && t.trace.any isPersisted

def order (call : Call) : Spec Ans where
  pre tr op := match op with
    | .getLastSeenVersion .. => True
    | .setLastSeenVersion tenantID aggregateID version => tr.any isPersisted = false ∧
        1 ≤ version ∧ call = ⟨tenantID,aggregateID,version⟩
  ans _ _ := True

def acceptedOnly (tr : Trace) : Except GoError VersionCheck → Prop
  | .ok check => check.status = .ok → tr.any isPersisted = true
  | .error _ => True

theorem meets_checkAndAdvance (call : Call) :
    Prog.Meets (order call) acceptedOnly [] (tracker.program call) := by
  simp only [tracker,checkAndAdvance,Prog.meets_ite,Prog.meets_fail,Prog.meets_bind,
    Prog.meets_perform]
  refine ⟨fun _ => trivial,fun _ => ⟨fun _ => trivial,fun _ => ⟨fun _ => trivial,fun hpos => ?_⟩⟩⟩
  refine ⟨trivial,?_⟩
  rintro (e | lastSeen) _
  · trivial
  · simp only [Prog.meets_ite,Prog.meets_pure,Prog.meets_bind,Prog.meets_perform]
    refine ⟨fun hne hok => absurd hok hne,fun _ => ⟨⟨rfl,Int64.not_lt.mp hpos,rfl⟩,?_⟩⟩
    rintro (e | ⟨⟩) _
    · trivial
    · exact fun _ => rfl

structure Recorded (c : Calls) : Prop where
  meets : Machine.ThreadsMeet order (fun _ => acceptedOnly) c
  seen : ∀ t ∈ c.threads, t.trace.any isPersisted = true →
    t.call.receivedVersion ≤ c.shared t.call.tenantID t.call.aggregateID
  once : ∀ call, c.threads.countP (persistedBy call) ≤ 1

theorem accepted_le_persisted {c : Calls} (h : Machine.ThreadsMeet order (fun _ => acceptedOnly) c)
    (call : Call) : c.threads.countP (accepted call) ≤ c.threads.countP (persistedBy call) := by
  refine List.countP_mono_left ?_
  intro t ht hacc
  have hmeets := h t ht
  simp only [accepted,Bool.and_eq_true,decide_eq_true_eq] at hacc
  cases hrest : t.rest with
  | ret check =>
    rw [hrest] at hmeets hacc
    simp only [persistedBy,hacc.1,decide_true,Bool.true_and]
    exact hmeets (by simpa using hacc.2)
  | fail e => simp [hrest] at hacc
  | call op k => simp [hrest] at hacc

theorem Store.set_ge {s : Store} {tenantID aggregateID : String} {version : Int64}
    (h : s tenantID aggregateID ≤ version) (tenant aggregate : String) :
    s tenant aggregate ≤ s.set tenantID aggregateID version tenant aggregate := by
  unfold Store.set
  split_ifs with hkey
  · rw [hkey.1,hkey.2]
    exact h
  · exact Int64.le_refl _

theorem Store.set_self (s : Store) (tenantID aggregateID : String) (version : Int64) :
    s.set tenantID aggregateID version tenantID aggregateID = version := by
  simp [Store.set]

theorem lt_of_succ_eq {stored version : Int64} (hpos : 1 ≤ version) (h : stored+1 = version) :
    stored < version := by
  rw [Int64.lt_iff_toInt_lt]
  rw [Int64.le_iff_toInt_le] at hpos
  have hone : (1 : Int64).toInt = 1 := rfl
  have hge := stored.le_toInt
  have hlt := stored.toInt_lt
  rw [← h,Int64.toInt_add,hone] at hpos ⊢
  rw [Int.bmod_def] at hpos ⊢
  split_ifs at hpos ⊢ <;> omega

section Steps

variable {c : Calls} {i : ℕ} {t : Tracked} {s' : Store}

theorem unwritten (h : Recorded c) {tenantID aggregateID : String} {version : Int64}
    (hlt : c.shared tenantID aggregateID < version) :
    c.threads.countP (persistedBy ⟨tenantID,aggregateID,version⟩) = 0 := by
  rw [List.countP_eq_zero]
  intro u hu hpersisted
  simp only [persistedBy,Bool.and_eq_true,decide_eq_true_eq] at hpersisted
  have hle := h.seen u hu hpersisted.2
  rw [hpersisted.1] at hle
  exact Int64.not_lt.mpr hle hlt

theorem seen_set (h : Recorded c) (hgrows : ∀ tenant aggregate,
      c.shared tenant aggregate ≤ s' tenant aggregate) {t' : Tracked}
    (hnew : t'.trace.any isPersisted = true →
      t'.call.receivedVersion ≤ s' t'.call.tenantID t'.call.aggregateID) :
    ∀ u ∈ c.threads.set i t', u.trace.any isPersisted = true →
      u.call.receivedVersion ≤ s' u.call.tenantID u.call.aggregateID := by
  refine Machine.forall_mem_set ?_ hnew
  exact fun u hu hpersisted => Int64.le_trans (h.seen u hu hpersisted) (hgrows _ _)

theorem once_same (h : Recorded c) {t' : Tracked} (ht : c.threads[i]? = some t)
    (hsame : ∀ call, persistedBy call t' = persistedBy call t) (call : Call) :
    (c.threads.set i t').countP (persistedBy call) ≤ 1 := by
  have hcount := Machine.countP_set_toNat (persistedBy call) t' ht
  have hone := h.once call
  rw [hsame call] at hcount
  omega

theorem once_new (h : Recorded c) {t' : Tracked} (ht : c.threads[i]? = some t)
    (hcall : t'.call = t.call) (hzero : c.threads.countP (persistedBy t.call) = 0) (call : Call) :
    (c.threads.set i t').countP (persistedBy call) ≤ 1 := by
  have hcount := Machine.countP_set_toNat (persistedBy call) t' ht
  have hone := h.once call
  by_cases heq : t.call = call
  · have hbit := (persistedBy call t').toNat_le
    rw [heq] at hzero
    omega
  · have hnot : persistedBy call t' = false := by simp [persistedBy,hcall,heq]
    rw [hnot] at hcount
    simp only [Bool.toNat_false] at hcount
    omega

theorem recorded_exec {op : Op} {k : Ans op → M VersionCheck} {o : Outcome} {ans : Ans op}
    (h : Recorded c) (hun : Uninterrupted c (.exec i o)) (ht : c.threads[i]? = some t)
    (halive : t.alive = true) (hrest : t.rest = .call op k)
    (hx : exec c.shared op o = some (ans,s')) :
    (∀ tenant aggregate, c.shared tenant aggregate ≤ s' tenant aggregate) ∧
    (∀ u ∈ c.threads.set i { t with rest := k ans, trace := ⟨op,ans⟩ :: t.trace },
      u.trace.any isPersisted = true →
        u.call.receivedVersion ≤ s' u.call.tenantID u.call.aggregateID) ∧
    ∀ call, (c.threads.set i { t with
      rest := k ans, trace := ⟨op,ans⟩ :: t.trace }).countP (persistedBy call) ≤ 1 := by
  have hmem := List.mem_of_getElem? ht
  have hpre := h.meets t hmem
  rw [hrest,Prog.meets_call] at hpre
  simp only [Uninterrupted,uninterrupted,Config.next_exec ht halive hrest] at hun
  cases op with
  | getLastSeenVersion tenantID aggregateID =>
    have hs' : s' = c.shared := by
      cases o <;> simp only [exec,Option.some.injEq,Prod.mk.injEq] at hx <;> exact hx.2.symm
    subst hs'
    refine ⟨fun _ _ => Int64.le_refl _,seen_set h (fun _ _ => Int64.le_refl _) ?_,?_⟩
    · exact fun hpersisted => h.seen t hmem (by simpa [isPersisted] using hpersisted)
    · exact once_same h ht fun call => by simp [persistedBy,isPersisted]
  | setLastSeenVersion tenantID aggregateID version =>
    obtain ⟨⟨hfresh,hpos,hcall⟩,_⟩ := hpre
    cases o with
    | lostRequest e =>
      simp only [exec,Option.some.injEq,Prod.mk.injEq] at hx
      obtain ⟨rfl,rfl⟩ := hx
      refine ⟨fun _ _ => Int64.le_refl _,seen_set h (fun _ _ => Int64.le_refl _) ?_,?_⟩
      · exact fun hpersisted => h.seen t hmem (by simpa [isPersisted] using hpersisted)
      · exact once_same h ht fun call => by simp [persistedBy,isPersisted]
    | lostReply e =>
      simp only [exec,Option.some.injEq,Prod.mk.injEq] at hx
      obtain ⟨rfl,rfl⟩ := hx
      have hgrows := Store.set_ge (s := c.shared) (Int64.le_of_lt (lt_of_succ_eq hpos (by simpa [Outcome.reaches] using hun)))
      refine ⟨hgrows,seen_set h hgrows ?_,?_⟩
      · intro hpersisted
        simp only [List.any_cons,isPersisted,hfresh,Bool.or_self,Bool.false_eq_true] at hpersisted
      · exact once_same h ht fun call => by simp [persistedBy,isPersisted]
    | done =>
      simp only [exec,Option.some.injEq,Prod.mk.injEq] at hx
      obtain ⟨rfl,rfl⟩ := hx
      have hlt := lt_of_succ_eq hpos (by simpa [Outcome.reaches] using hun)
      have hgrows := Store.set_ge (s := c.shared) (Int64.le_of_lt hlt)
      refine ⟨hgrows,seen_set h hgrows ?_,?_⟩
      · intro _
        rw [hcall,Store.set_self]
        exact Int64.le_refl _
      · exact once_new h ht rfl (by rw [hcall]; exact unwritten h hlt)

theorem recorded_step {a : Step} {c' : Calls} (h : Recorded c) (hun : Uninterrupted c a)
    (hs : tracker.step c a = some c') : Recorded c' ∧ Monotone c c' := by
  have hmeets := h.meets.step (m := tracker) meets_checkAndAdvance
    (fun _ _ _ _ _ _ _ => trivial) hs
  have hmono : (∀ tenant aggregate, c.shared tenant aggregate ≤ c'.shared tenant aggregate) ∧
      (∀ t ∈ c'.threads, t.trace.any isPersisted = true →
        t.call.receivedVersion ≤ c'.shared t.call.tenantID t.call.aggregateID) ∧
      ∀ call, c'.threads.countP (persistedBy call) ≤ 1 := by
    obtain ⟨call,rfl,rfl⟩ | ⟨i,x,t,op,k,ans,s',rfl,ht,halive,hrest,hx,rfl⟩ | ⟨i,t,rfl,ht,rfl⟩ |
      ⟨e,rfl,rfl⟩ := tracker.step_cases hs
    · refine ⟨fun _ _ => Int64.le_refl _,?_,?_⟩
      · intro t ht hpersisted
        rcases List.mem_append.mp ht with ht | ht
        · exact h.seen t ht hpersisted
        · simp [List.mem_singleton.mp ht] at hpersisted
      · intro call'
        simpa [persistedBy] using h.once call'
    · exact recorded_exec h hun ht halive hrest hx
    · refine ⟨fun _ _ => Int64.le_refl _,?_,?_⟩
      · exact Machine.forall_mem_set h.seen (h.seen t (List.mem_of_getElem? ht))
      · exact once_same h ht fun call => rfl
    · exact e.elim
  refine ⟨⟨hmeets,hmono.2.1,hmono.2.2⟩,hmono.1,fun call => ?_⟩
  exact Nat.le_trans (accepted_le_persisted hmeets call) (hmono.2.2 call)

end Steps

theorem versions_accepted_once (s : Store) (acts : List Step)
    (h : tracker.Along Uninterrupted acts ⟨s,[]⟩) :
    tracker.Along (fun c a => ∀ c', tracker.step c a = some c' → Monotone c c') acts ⟨s,[]⟩ := by
  refine tracker.along_imp (I := Recorded) ?_ ?_ ?_ h
  · exact fun c a hrec hun c' hs => (recorded_step hrec hun hs).2
  · exact fun c a c' hrec hun hs => (recorded_step hrec hun hs).1
  · exact ⟨fun t ht => by simp at ht,fun t ht => by simp at ht,fun _ => Nat.zero_le _⟩

def orderVersion (version : Int64) : Call := ⟨"tenant","order-1",version⟩

def inTurn : List Step :=
  [.start (orderVersion 1),.start (orderVersion 2),.exec 0 .done,.exec 0 .done,.exec 1 .done,.exec 1 .done]

theorem versions_accepted_once_in_turn :
    tracker.Along Uninterrupted inTurn ⟨fun _ _ => 0,[]⟩ ∧
    tracker.Along (fun c a => ∀ c', tracker.step c a = some c' → Monotone c c') inTurn
      ⟨fun _ _ => 0,[]⟩ :=
  ⟨by decide +kernel,versions_accepted_once _ _ (by decide +kernel)⟩

def stalled : List Step :=
  [.start (orderVersion 1),.start (orderVersion 1),.start (orderVersion 2),.exec 0 .done,.exec 1 .done,.exec 1 .done,
    .exec 2 .done,.exec 2 .done]

theorem stalled_write_goes_back :
    (tracker.run (stalled ++ ([.exec 0 .done] : List Step)) ⟨fun _ _ => 0,[]⟩).map
      (fun c => (c.shared "tenant" "order-1",c.threads.countP (accepted (orderVersion 1)))) = some (1,2) ∧
    ¬ tracker.Along (fun c a => ∀ c', tracker.step c a = some c' → Monotone c c')
      (stalled ++ ([.exec 0 .done] : List Step)) ⟨fun _ _ => 0,[]⟩ := by
  have hback : (tracker.run (stalled ++ ([.exec 0 .done] : List Step)) ⟨fun _ _ => 0,[]⟩).map
      (fun c => (c.shared "tenant" "order-1",c.threads.countP (accepted (orderVersion 1)))) =
        some (1,2) := by decide +kernel
  refine ⟨hback,fun h => ?_⟩
  obtain ⟨c,c',hrun,hs,hc'⟩ := tracker.run_last hback
  have honce := (tracker.along_at h hrun c' hs).once (orderVersion 1)
  simp only [Prod.mk.injEq] at hc'
  omega

end Nimburion.EventBus.AggregateVersion
