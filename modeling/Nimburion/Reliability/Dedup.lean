import Nimburion.Errors
import Nimburion.Lib.GoTime
import Nimburion.Lib.Interaction

namespace Nimburion.Reliability.Dedup
open Interaction GoTime

def defaultRetention : Duration := 24*60*60*second

inductive Op where
  | isDuplicate (scope key : String)
  | now
  | markSeen (scope key : String) (seenAt retainUntil : Time)
  deriving DecidableEq, Repr

abbrev Ans : Op → Type
  | .isDuplicate .. => Except GoError Bool
  | .now => Time
  | .markSeen .. => Except GoError Unit

abbrev M := Prog Op Ans GoError

def checkAndMark (scope key : String) (retention : Duration) : M Bool :=
  if scope = "" then Prog.fail (.text "scope is required")
  else if key = "" then Prog.fail (.text "key is required")
  else do
    let retention := if retention ≤ 0 then defaultRetention else retention
    let checked ← Prog.perform (Op.isDuplicate scope key)
    match checked with
    | .error e => Prog.fail (.wrapped "check duplicate failed: " e)
    | .ok true => pure true
    | .ok false => do
        let now ← Prog.perform Op.now
        let marked ← Prog.perform (Op.markSeen scope key now (now+retention))
        match marked with
        | .error e => Prog.fail (.wrapped "mark seen failed: " e)
        | .ok _ => pure false

structure Call where
  scope : String
  key : String
  retention : Duration
  deriving DecidableEq, Repr

structure Store where
  clock : Time
  markers : String → String → Option Time

def Store.set (s : Store) (scope key : String) (marker : Option Time) : Store :=
  { s with markers := fun scope' key' =>
      if scope' = scope ∧ key' = key then marker else s.markers scope' key' }

-- `keptExpired` is a store whose IsDuplicate reports a marker until it is cleaned up
inductive Outcome where
  | done
  | keptExpired
  | lostRequest (e : GoError)
  | lostReply (e : GoError)
  deriving DecidableEq, Repr

def Outcome.reaches : Outcome → Bool
  | .lostRequest _ => false
  | _ => true

def exec (s : Store) (op : Op) (o : Outcome) : Option (Ans op × Store) :=
  match op with
  | .isDuplicate scope key => match o with
      | .done => some (.ok ((s.markers scope key).any fun until_ => s.clock < until_),s)
      | .keptExpired => some (.ok (s.markers scope key).isSome,s)
      | .lostRequest e | .lostReply e => some (.error e,s)
  | .now => some (s.clock,s)
  | .markSeen scope key _ retainUntil => match o with
      | .done | .keptExpired => some (.ok (),s.set scope key (some retainUntil))
      | .lostRequest e => some (.error e,s)
      | .lostReply e => some (.error e,s.set scope key (some retainUntil))

inductive Env where
  | tick (elapsed : ℕ)
  | cleanup (before : Time) (found : List (String × String))

-- CleanupExpiredBefore runs on a ticker's time, which has passed; which of the expired markers
-- its limit reaches is the store's choice
def cleanupExpiredBefore (s : Store) (before : Time) (found : List (String × String)) : Store :=
  if before ≤ s.clock then
    { s with markers := fun scope key => (s.markers scope key).filter fun until_ =>
        !((scope,key) ∈ found && until_ ≤ before) }
  else s

def env (s : Store) : Env → Store
  | .tick elapsed => { s with clock := s.clock+elapsed }
  | .cleanup before found => cleanupExpiredBefore s before found

abbrev Trace := List (Event Ans)

abbrev Calls := Config Ans GoError Store Call Bool

abbrev Checked := Thread Ans GoError Call Bool

abbrev Step := Action Call Outcome Env

def deduplicator : Machine Ans GoError Store Call Bool Outcome Env where
  program := fun c => checkAndMark c.scope c.key c.retention
  exec := exec
  env := env

section Admission

variable (scope key : String)

def admitted (t : Checked) : Bool :=
  decide (t.call.scope = scope) && decide (t.call.key = key) && match t.rest with
    | .ret false => true
    | _ => false

def retained (c : Calls) : Bool :=
  (c.shared.markers scope key).all fun until_ => c.shared.clock < until_

-- a mark that reaches the store finds no marker there: nobody marked since the check
def unmarked (c : Calls) (a : Step) : Bool :=
  match c.next a with
  | some (_,.markSeen scope' key' _ _,o) =>
      !(o.reaches && scope' = scope && key' = key) || (c.shared.markers scope key).isNone
  | _ => true

def AdmittedOnce (c : Calls) (a : Step) : Prop :=
  ∀ c', deduplicator.step c a = some c' → c'.threads.countP (admitted scope key) ≤ 1

def isMark : Event Ans → Bool
  | ⟨.markSeen scope' key' _ _,.ok _⟩ => scope' = scope && key' = key
  | _ => false

def marked (t : Checked) : Bool := t.trace.any (isMark scope key)

def order (call : Call) : Spec Ans where
  pre _ op := match op with
    | .markSeen scope key _ _ => call.scope = scope ∧ call.key = key
    | _ => True
  ans _ _ := True

def admittedOnly (call : Call) (tr : Trace) : Except GoError Bool → Prop
  | .ok duplicate => duplicate = false → tr.any (isMark call.scope call.key) = true
  | .error _ => True

structure Kept (s : Store) (calls : List Checked) : Prop where
  stored : 0 < calls.countP (marked scope key) → (s.markers scope key).isSome = true
  once : calls.countP (marked scope key) ≤ 1

structure Recorded (c : Calls) : Prop where
  meets : Machine.ThreadsMeet order admittedOnly c
  kept : Kept scope key c.shared c.threads

end Admission

theorem meets_checkAndMark (call : Call) :
    Prog.Meets (order call) (admittedOnly call) [] (deduplicator.program call) := by
  simp only [deduplicator,checkAndMark,Prog.meets_ite,Prog.meets_fail,Prog.meets_bind,
    Prog.meets_perform]
  refine ⟨fun _ => trivial,fun _ => ⟨fun _ => trivial,fun _ => ⟨trivial,?_⟩⟩⟩
  rintro (e | _ | _) _
  · trivial
  · simp only [Prog.meets_bind,Prog.meets_perform]
    refine ⟨trivial,fun now _ => ⟨⟨rfl,rfl⟩,?_⟩⟩
    rintro (e | ⟨⟩) _
    · trivial
    · exact fun _ => by simp [isMark]
  · exact fun h => by cases h

section Steps

variable {scope key : String} {c : Calls} {i : ℕ} {t : Checked} {s' : Store}

theorem admitted_le_marked (h : Machine.ThreadsMeet order admittedOnly c) :
    c.threads.countP (admitted scope key) ≤ c.threads.countP (marked scope key) := by
  refine List.countP_mono_left ?_
  intro t ht hadm
  have hmeets := h t ht
  simp only [admitted,Bool.and_eq_true,decide_eq_true_eq] at hadm
  cases hrest : t.rest with
  | ret duplicate =>
    rw [hrest] at hmeets hadm
    cases duplicate with
    | true => simp at hadm
    | false =>
      have hmarked : t.trace.any (isMark t.call.scope t.call.key) = true := hmeets rfl
      rw [hadm.1.1,hadm.1.2] at hmarked
      exact hmarked
  | fail e => simp [hrest] at hadm
  | call op k => simp [hrest] at hadm

theorem Kept.of_same {t' : Checked} (h : Kept scope key c.shared c.threads)
    (ht : c.threads[i]? = some t) (hsame : marked scope key t' = marked scope key t)
    (hstore : s'.markers scope key = c.shared.markers scope key) :
    Kept scope key s' (c.threads.set i t') := by
  have hcount := Machine.countP_set_toNat (marked scope key) t' ht
  rw [hsame,Nat.add_right_cancel_iff] at hcount
  refine ⟨?_,hcount ▸ h.once⟩
  rw [hcount,hstore]
  exact h.stored

theorem Kept.of_new {t' : Checked} (h : Kept scope key c.shared c.threads)
    (ht : c.threads[i]? = some t) (hnone : c.shared.markers scope key = none)
    (hstore : (s'.markers scope key).isSome = true) :
    Kept scope key s' (c.threads.set i t') := by
  have hcount := Machine.countP_set_toNat (marked scope key) t' ht
  have hbit := (marked scope key t').toNat_le
  have hzero : c.threads.countP (marked scope key) = 0 := by
    by_contra hne
    have hstored := h.stored (Nat.pos_of_ne_zero hne)
    simp [hnone] at hstored
  exact ⟨fun _ => hstore,by omega⟩

theorem markers_set (s : Store) (scope' key' : String) (marker : Option Time) :
    (s.set scope' key' marker).markers scope key =
      if scope = scope' ∧ key = key' then marker else s.markers scope key := rfl

theorem kept_markSeen {scope' key' : String} {seenAt retainUntil : Time}
    {k : Except GoError Unit → M Bool} {o : Outcome} {ans : Except GoError Unit} {t' : Checked}
    (h : Kept scope key c.shared c.threads) (hun : unmarked scope key c (.exec i o) = true)
    (ht : c.threads[i]? = some t) (halive : t.alive = true)
    (hrest : t.rest = .call (.markSeen scope' key' seenAt retainUntil) k)
    (htrace : t'.trace = ⟨.markSeen scope' key' seenAt retainUntil,ans⟩ :: t.trace)
    (hx : exec c.shared (.markSeen scope' key' seenAt retainUntil) o = some (ans,s')) :
    Kept scope key s' (c.threads.set i t') := by
  simp only [unmarked,Config.next_exec ht halive hrest] at hun
  by_cases hkey : scope' = scope ∧ key' = key
  · obtain ⟨rfl,rfl⟩ := hkey
    cases o with
    | lostRequest e =>
      simp only [exec,Option.some.injEq,Prod.mk.injEq] at hx
      obtain ⟨rfl,rfl⟩ := hx
      exact h.of_same ht (by simp [marked,isMark,htrace]) rfl
    | done | keptExpired | lostReply e =>
      simp only [exec,Option.some.injEq,Prod.mk.injEq] at hx
      obtain ⟨rfl,rfl⟩ := hx
      exact h.of_new ht (by simpa [Outcome.reaches] using hun) (by simp [markers_set])
  · have hnot : isMark scope key ⟨.markSeen scope' key' seenAt retainUntil,ans⟩ = false := by
      cases ans with
      | error e => rfl
      | ok => simpa [isMark] using hkey
    have hkey' : ¬ (scope = scope' ∧ key = key') := fun heq => hkey ⟨heq.1.symm,heq.2.symm⟩
    refine h.of_same ht (by simp [marked,hnot,htrace]) ?_
    cases o <;> simp only [exec,Option.some.injEq,Prod.mk.injEq] at hx <;> rw [← hx.2] <;>
      simp [markers_set,hkey']

theorem kept_exec {op : Op} {k : Ans op → M Bool} {o : Outcome} {ans : Ans op}
    (h : Kept scope key c.shared c.threads) (hun : unmarked scope key c (.exec i o) = true)
    (ht : c.threads[i]? = some t) (halive : t.alive = true) (hrest : t.rest = .call op k)
    (hx : exec c.shared op o = some (ans,s')) :
    Kept scope key s' (c.threads.set i { t with
      rest := k ans, trace := ⟨op,ans⟩ :: t.trace }) := by
  cases op with
  | isDuplicate scope' key' =>
    have hs' : s' = c.shared := by
      cases o <;> simp only [exec,Option.some.injEq,Prod.mk.injEq] at hx <;> exact hx.2.symm
    exact h.of_same ht (by simp [marked,isMark]) (by rw [hs'])
  | now =>
    simp only [exec,Option.some.injEq,Prod.mk.injEq] at hx
    exact h.of_same ht (by simp [marked,isMark]) (by rw [hx.2])
  | markSeen => exact kept_markSeen h hun ht halive hrest rfl hx

theorem cleanup_keeps {before : Time} {found : List (String × String)}
    (h : retained scope key c = true) (hsome : (c.shared.markers scope key).isSome = true) :
    ((cleanupExpiredBefore c.shared before found).markers scope key).isSome = true := by
  obtain ⟨until_,huntil⟩ := Option.isSome_iff_exists.mp hsome
  have hlive : c.shared.clock < until_ := by simpa [retained,huntil] using h
  unfold cleanupExpiredBefore
  split_ifs with hbefore
  · have hlt : ¬ until_ ≤ before := Int.not_le.mpr (Int.lt_of_le_of_lt hbefore hlive)
    simp [huntil,hlt]
  · exact hsome

theorem recorded_step {a : Step} {c' : Calls} (h : Recorded scope key c)
    (hretained : retained scope key c = true) (hun : unmarked scope key c a = true)
    (hs : deduplicator.step c a = some c') : Recorded scope key c' := by
  refine ⟨h.meets.step (m := deduplicator) meets_checkAndMark (fun _ _ _ _ _ _ _ => trivial) hs,
    ?_⟩
  obtain ⟨call,rfl,rfl⟩ | ⟨i,x,t,op,k,ans,s',rfl,ht,halive,hrest,hx,rfl⟩ | ⟨i,t,rfl,ht,rfl⟩ |
    ⟨e,rfl,rfl⟩ := deduplicator.step_cases hs
  · exact ⟨by simpa [marked] using h.kept.stored,by simpa [marked] using h.kept.once⟩
  · exact kept_exec h.kept hun ht halive hrest hx
  · exact h.kept.of_same ht rfl rfl
  · refine ⟨fun hpos => ?_,h.kept.once⟩
    cases e with
    | tick elapsed => exact h.kept.stored hpos
    | cleanup before found => exact cleanup_keeps hretained (h.kept.stored hpos)

end Steps

theorem key_admitted_once (scope key : String) (s : Store) (acts : List Step)
    (h : deduplicator.Along
      (fun c a => retained scope key c = true ∧ unmarked scope key c a = true) acts ⟨s,[]⟩) :
    deduplicator.Along (AdmittedOnce scope key) acts ⟨s,[]⟩ := by
  refine deduplicator.along_imp (I := Recorded scope key) ?_ ?_ ?_ h
  · intro c a hrec hP c' hs
    have hrec' := recorded_step hrec hP.1 hP.2 hs
    exact Nat.le_trans (admitted_le_marked hrec'.meets) hrec'.kept.once
  · exact fun c a c' hrec hP hs => recorded_step hrec hP.1 hP.2 hs
  · exact ⟨fun t ht => by simp at ht,fun hpos => by simp at hpos,Nat.zero_le _⟩

def event1 : Call := ⟨"consumer-a","evt-1",60*second⟩

def redelivered : List Step :=
  [.start event1,.exec 0 .done,.exec 0 .done,.exec 0 .done,.env (.tick 5),
    .env (.cleanup 5 [("consumer-a","evt-1")]),.start event1,.exec 1 .done]

theorem key_admitted_once_redelivered :
    deduplicator.Along (fun c a => retained "consumer-a" "evt-1" c = true ∧
      unmarked "consumer-a" "evt-1" c a = true) redelivered ⟨⟨0,fun _ _ => none⟩,[]⟩ ∧
    deduplicator.Along (AdmittedOnce "consumer-a" "evt-1") redelivered ⟨⟨0,fun _ _ => none⟩,[]⟩ :=
  ⟨by decide +kernel,key_admitted_once _ _ _ _ (by decide +kernel)⟩

def overlapping : List Step :=
  [.start event1,.start event1,.exec 0 .done,.exec 1 .done,.exec 0 .done,.exec 0 .done,.exec 1 .done]

theorem overlapping_checks_admit_twice :
    (deduplicator.run (overlapping ++ ([.exec 1 .done] : List Step))
      ⟨⟨0,fun _ _ => none⟩,[]⟩).map (fun c => (c.threads.countP (admitted "consumer-a" "evt-1"),
        retained "consumer-a" "evt-1" c)) = some (2,true) ∧
    ¬ deduplicator.Along (AdmittedOnce "consumer-a" "evt-1")
      (overlapping ++ ([.exec 1 .done] : List Step)) ⟨⟨0,fun _ _ => none⟩,[]⟩ := by
  have htwice : (deduplicator.run (overlapping ++ ([.exec 1 .done] : List Step))
      ⟨⟨0,fun _ _ => none⟩,[]⟩).map (fun c => (c.threads.countP (admitted "consumer-a" "evt-1"),
        retained "consumer-a" "evt-1" c)) = some (2,true) := by decide +kernel
  refine ⟨htwice,fun h => ?_⟩
  obtain ⟨c,c',hrun,hs,hc'⟩ := deduplicator.run_last htwice
  have honce := deduplicator.along_at h hrun c' hs
  simp only [Prod.mk.injEq] at hc'
  omega

end Nimburion.Reliability.Dedup
