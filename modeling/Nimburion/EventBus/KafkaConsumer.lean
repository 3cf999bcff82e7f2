import Nimburion.Errors
import Nimburion.EventBus.Adapters

namespace Nimburion.EventBus.Kafka

-- what one turn of the loop meets; CommitMessages' error is only logged, so a commit is
-- known by whether the broker stored it
structure Round where
  done : Bool
  fetched : Except GoError KafkaMessage
  handler : Message → Option GoError
  stored : Bool

inductive Event where
  | failed (partition : ℕ) (offset : Int) (err : GoError)
  | handled (partition : ℕ) (offset : Int)
  | committed (partition : ℕ) (offset : Int)
  deriving DecidableEq, Repr

def consumeMessages : List Round → List Event
  | [] => []
  | r :: rounds =>
      if r.done then []
      else match r.fetched with
      | .error err =>
          if GoError.wraps .contextCanceled err then [] else consumeMessages rounds
      | .ok msg => match r.handler (consume msg) with
        | some err => .failed msg.partition msg.offset err :: consumeMessages rounds
        | none =>
            .handled msg.partition msg.offset ::
              ((if r.stored then [.committed msg.partition msg.offset] else []) ++
                consumeMessages rounds)

def AtLeastOnce (log : List Event) : Prop :=
  ∀ p n m err, .failed p n err ∈ log → .committed p m ∈ log → m < n

-- a commit of offset n makes n+1 the place where the next session starts to read
def resume (start : ℕ → Int) : List Event → ℕ → Int
  | [], p => start p
  | .committed q m :: log, p => if q = p then max (m+1) (resume start log p) else resume start log p
  | _ :: log, p => resume start log p

structure Delivery where
  partition : ℕ
  offset : Int
  err : Option GoError
  stored : Bool
  deriving DecidableEq, Repr

def deliveries : List Round → List Delivery
  | [] => []
  | r :: rounds =>
      if r.done then []
      else match r.fetched with
      | .error err => if GoError.wraps .contextCanceled err then [] else deliveries rounds
      | .ok msg =>
          ⟨msg.partition,msg.offset,r.handler (consume msg),r.stored⟩ :: deliveries rounds

def Delivery.commits (d : Delivery) : Bool := d.err.isNone && d.stored

def Delivery.events (d : Delivery) : List Event :=
  match d.err with
  | some err => [.failed d.partition d.offset err]
  | none => .handled d.partition d.offset ::
      (if d.stored then [.committed d.partition d.offset] else [])

-- FetchMessage hands out the offsets of a partition in order
def Successive (rounds : List Round) : Prop :=
  (deliveries rounds).Pairwise fun a b => a.partition = b.partition → a.offset < b.offset

def NoCommitPastFailure (rounds : List Round) : Prop :=
  (deliveries rounds).Pairwise fun a b =>
    a.partition = b.partition → a.err.isSome = true → b.commits = false

theorem consumeMessages_eq (rounds : List Round) :
    consumeMessages rounds = (deliveries rounds).flatMap Delivery.events := by
  induction rounds with
  | nil => rfl
  | cons r rounds ih =>
    simp only [consumeMessages,deliveries]
    cases r.done with
    | true => rfl
    | false =>
      cases r.fetched with
      | error err =>
        simp only [Bool.false_eq_true,if_false]
        split_ifs
        · rfl
        · exact ih
      | ok msg =>
        cases hhandler : r.handler (consume msg) with
        | some err => simp [Delivery.events,ih,hhandler]
        | none => simp [Delivery.events,ih,hhandler]

section Log

variable {ds : List Delivery} {d : Delivery} {p : ℕ} {n : Int} {err : GoError}

theorem mem_failed_iff : .failed p n err ∈ ds.flatMap Delivery.events ↔
    ∃ d ∈ ds, d.partition = p ∧ d.offset = n ∧ d.err = some err := by
  rw [List.mem_flatMap]
  refine exists_congr fun d => and_congr_right fun _ => ?_
  unfold Delivery.events
  cases d.err with
  | some e =>
    simp only [List.mem_singleton,Event.failed.injEq,Option.some.injEq]
    exact ⟨fun ⟨h1,h2,h3⟩ => ⟨h1.symm,h2.symm,h3.symm⟩,fun ⟨h1,h2,h3⟩ => ⟨h1.symm,h2.symm,h3.symm⟩⟩
  | none => cases d.stored <;> simp

theorem mem_committed_iff : .committed p n ∈ ds.flatMap Delivery.events ↔
    ∃ d ∈ ds, d.partition = p ∧ d.offset = n ∧ d.commits = true := by
  rw [List.mem_flatMap]
  refine exists_congr fun d => and_congr_right fun _ => ?_
  unfold Delivery.events Delivery.commits
  cases d.err with
  | some e => simp
  | none =>
    cases d.stored with
    | false => simp
    | true =>
      simp only [if_true,List.mem_cons,reduceCtorEq,Event.committed.injEq,List.not_mem_nil,
        or_false,false_or,Option.isNone_none,Bool.and_self,and_true]
      exact ⟨fun ⟨h1,h2⟩ => ⟨h1.symm,h2.symm⟩,fun ⟨h1,h2⟩ => ⟨h1.symm,h2.symm⟩⟩

theorem atLeastOnce_iff (hsucc : ds.Pairwise fun a b => a.partition = b.partition →
      a.offset < b.offset) :
    AtLeastOnce (ds.flatMap Delivery.events) ↔ ds.Pairwise fun a b =>
      a.partition = b.partition → a.err.isSome = true → b.commits = false := by
  induction ds with
  | nil => simp [AtLeastOnce]
  | cons d ds ih =>
    obtain ⟨hhead,htail⟩ := List.pairwise_cons.mp hsucc
    rw [List.pairwise_cons,← ih htail]
    constructor
    · intro h
      refine ⟨?_,?_⟩
      · intro b hb hpart hfail
        by_contra hcommit
        obtain ⟨e,he⟩ := Option.isSome_iff_exists.mp hfail
        have hlt := h d.partition d.offset b.offset e
          (mem_failed_iff.mpr ⟨d,by simp,rfl,rfl,he⟩)
          (mem_committed_iff.mpr ⟨b,by simp [hb],hpart.symm,rfl,by simpa using hcommit⟩)
        have hgt := hhead b hb hpart
        omega
      · intro p n m e hfail hcommit
        obtain ⟨a,ha,hfacts⟩ := mem_failed_iff.mp hfail
        obtain ⟨b,hb,hfacts'⟩ := mem_committed_iff.mp hcommit
        exact h p n m e (mem_failed_iff.mpr ⟨a,by simp [ha],hfacts⟩)
          (mem_committed_iff.mpr ⟨b,by simp [hb],hfacts'⟩)
    · rintro ⟨hfirst,hrest⟩ p n m e hfail hcommit
      obtain ⟨a,ha,hap,han,hae⟩ := mem_failed_iff.mp hfail
      obtain ⟨b,hb,hbp,hbm,hbc⟩ := mem_committed_iff.mp hcommit
      rcases List.mem_cons.mp ha with rfl | ha'
      · rcases List.mem_cons.mp hb with rfl | hb'
        · simp [Delivery.commits,hae] at hbc
        · have hnot := hfirst b hb' (hap.trans hbp.symm) (by simp [hae])
          rw [hnot] at hbc
          cases hbc
      · rcases List.mem_cons.mp hb with rfl | hb'
        · rw [← hbm,← han]
          exact hhead a ha' (hbp.trans hap.symm)
        · exact hrest p n m e (mem_failed_iff.mpr ⟨a,ha',hap,han,hae⟩)
            (mem_committed_iff.mpr ⟨b,hb',hbp,hbm,hbc⟩)

theorem resume_le {start : ℕ → Int} {log : List Event} (hlog : AtLeastOnce log)
    (hstart : start p ≤ n) (hfail : .failed p n err ∈ log) : resume start log p ≤ n := by
  have hbelow : ∀ m, .committed p m ∈ log → m < n := fun m hm => hlog p n m err hfail hm
  clear hfail hlog
  induction log with
  | nil => exact hstart
  | cons e log ih =>
    have hrest := ih fun m hm => hbelow m (List.mem_cons_of_mem _ hm)
    cases e with
    | failed q k e => exact hrest
    | handled q k => exact hrest
    | committed q m =>
      simp only [resume]
      split_ifs with hq
      · have hm := hbelow m (by simp [hq])
        omega
      · exact hrest

end Log

theorem no_commit_past_failure_iff {rounds : List Round} (hsucc : Successive rounds) :
    (AtLeastOnce (consumeMessages rounds) ↔ NoCommitPastFailure rounds) ∧
    (NoCommitPastFailure rounds → ∀ start p n err, start p ≤ n →
      .failed p n err ∈ consumeMessages rounds →
      resume start (consumeMessages rounds) p ≤ n) := by
  have hiff : AtLeastOnce (consumeMessages rounds) ↔ NoCommitPastFailure rounds := by
    rw [consumeMessages_eq]
    exact atLeastOnce_iff hsucc
  refine ⟨hiff,?_⟩
  intro h start p n err hstart hfail
  exact resume_le (hiff.mpr h) hstart hfail

def record (offset : Int) : KafkaMessage := ⟨"orders",0,offset,"",[1],∅,0⟩

def refused : Message → Option GoError := fun _ => some (.text "database is down")

def accepted : Message → Option GoError := fun _ => none

def successThenFailure : List Round :=
  [⟨false,.ok (record 5),accepted,true⟩,⟨false,.ok (record 6),refused,true⟩,
    ⟨false,.error .contextCanceled,accepted,true⟩]

def failureThenSuccess : List Round :=
  [⟨false,.ok (record 5),refused,true⟩,⟨false,.ok (record 6),accepted,true⟩,
    ⟨false,.error .contextCanceled,accepted,true⟩]

theorem no_commit_past_failure_iff_when_last_fails : Successive successThenFailure ∧
    AtLeastOnce (consumeMessages successThenFailure) ∧
    resume (fun _ => 5) (consumeMessages successThenFailure) 0 ≤ 6 := by
  have hsucc : Successive successThenFailure := by
    unfold Successive
    decide
  have hcond : NoCommitPastFailure successThenFailure := by
    unfold NoCommitPastFailure
    decide
  obtain ⟨hiff,hresume⟩ := no_commit_past_failure_iff hsucc
  exact ⟨hsucc,hiff.mpr hcond,
    hresume hcond _ 0 6 (.text "database is down") (by decide) (by decide)⟩

theorem later_success_commits_failed_offset : Successive failureThenSuccess ∧
    ¬ AtLeastOnce (consumeMessages failureThenSuccess) ∧
    resume (fun _ => 5) (consumeMessages failureThenSuccess) 0 = 7 := by
  refine ⟨by unfold Successive; decide,?_,by decide⟩
  intro h
  have hlt : (6 : Int) < 5 := h 0 5 6 (.text "database is down") (by decide) (by decide)
  omega

end Nimburion.EventBus.Kafka
