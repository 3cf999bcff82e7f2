import Nimburion.EventBus.RetryDLQ

namespace Nimburion.EventBus.RetryDLQ
open Interaction GoText GoTime Decimal Resilience

def isHandled : Event Ans → Bool
  | ⟨.handle ..,_⟩ => true
  | _ => false

def isRouted : Event Ans → Bool
  | ⟨.quarantine _,.ok _⟩ => true
  | ⟨.publish ..,.ok _⟩ => true
  | _ => false

def isRefused : Event Ans → Bool
  | ⟨.wait _,.error _⟩ => true
  | ⟨.quarantine _,.error _⟩ => true
  | ⟨.marshal _,.error _⟩ => true
  | ⟨.publish ..,.error _⟩ => true
  | _ => false

def Clean (tr : Trace) : Prop := tr.any isRouted = false ∧ tr.any isRefused = false

def discipline : Spec Ans where
  pre tr op := match op with
    | .now => True
    | _ => Clean tr
  ans _ _ := True

def Settled (consumerTopic : String) (tr : Trace) : Except GoError Unit → Prop
  | .ok _ => Clean tr
  | .error _ => (consumerTopic = "" ∧ Clean tr) ∨
      (tr.any isRouted = true ∧ tr.any isRefused = false) ∨
      (tr.any isRouted = false ∧ tr.any isRefused = true)

section Discipline

variable {cfg : Config} {consumerTopic : String} {message : Message} {tr : Trace}

theorem clean_cons {ev : Event Ans} (h : Clean tr) (hr : isRouted ev = false)
    (hf : isRefused ev = false) : Clean (ev :: tr) := by
  simp [Clean,hr,hf,h.1,h.2]

theorem routed_cons {ev : Event Ans} (h : Clean tr) (hr : isRouted ev = true)
    (hf : isRefused ev = false) :
    (ev :: tr).any isRouted = true ∧ (ev :: tr).any isRefused = false := by
  simp [hr,hf,h.2]

theorem refused_cons {ev : Event Ans} (h : Clean tr) (hr : isRouted ev = false)
    (hf : isRefused ev = true) :
    (ev :: tr).any isRouted = false ∧ (ev :: tr).any isRefused = true := by
  simp [hr,hf,h.1]

theorem meets_now {post : Trace → Except GoError Time → Prop} (hclean : Clean tr)
    (hpost : ∀ t, Clean (⟨.now,t⟩ :: tr) → post (⟨.now,t⟩ :: tr) (.ok t)) :
    Prog.Meets discipline post tr now :=
  ⟨trivial,fun t _ => hpost t (clean_cons hclean rfl rfl)⟩

theorem meets_execute {cb : CircuitBreaker}
    {post : Trace → Except GoError (Option GoError × CircuitBreaker) → Prop} (hclean : Clean tr)
    (hpost : ∀ tr r, Clean tr → post tr (.ok r)) :
    Prog.Meets discipline post tr (execute cfg message cb) := by
  simp only [execute,Prog.meets_bind]
  refine meets_now hclean ?_
  intro t hnow
  dsimp only
  cases cb.canExecute t with
  | mk allowed cb' =>
    cases allowed with
    | false => exact hpost _ _ hnow
    | true =>
      simp only [Prog.meets_bind,Prog.meets_perform]
      refine ⟨hnow,fun attempt _ => ?_⟩
      have hhandled : Clean (⟨.handle message (budget cfg).attemptTimeout,attempt⟩ ::
          ⟨.now,t⟩ :: tr) := clean_cons hnow rfl rfl
      cases withTimeout attempt with
      | none => exact hpost _ _ hhandled
      | some err =>
        simp only [Prog.meets_bind]
        exact meets_now hhandled fun _ h => hpost _ _ h

def Looped (tr : Trace) : Ended → Prop
  | .processed => Clean tr
  | .canceled _ => tr.any isRouted = false ∧ tr.any isRefused = true
  | .gaveUp _ _ => Clean tr

theorem meets_retryLoop {room : ℕ} {attempt attemptsUsed : Int64} {cb : CircuitBreaker}
    {lastErr : Option GoError} {post : Trace → Except GoError Ended → Prop} (hclean : Clean tr)
    (hpost : ∀ tr ended, Looped tr ended → post tr (.ok ended)) :
    Prog.Meets discipline post tr (retryLoop cfg message room attempt cb lastErr attemptsUsed) := by
  induction room generalizing tr attempt cb lastErr attemptsUsed with
  | zero => exact hpost _ _ hclean
  | succ room ih =>
    simp only [retryLoop,Prog.meets_bind]
    refine meets_execute hclean ?_
    rintro tr ⟨lastErr,cb⟩ hclean
    cases lastErr with
    | none => exact hpost _ _ hclean
    | some err =>
      simp only [Prog.meets_ite,Prog.meets_pure,Prog.meets_bind,Prog.meets_perform]
      refine ⟨fun _ => hpost _ _ hclean,fun _ => ⟨hclean,?_⟩⟩
      rintro (e | ⟨⟩) _
      · exact hpost _ _ (refused_cons hclean rfl rfl)
      · exact ih (clean_cons hclean rfl rfl)

theorem meets_sendToDLQ {dlqTopic originalTopic : String} {failure : Option GoError}
    {attempts : Int64} {post : Trace → Except GoError Unit → Prop} (hclean : Clean tr)
    (hok : ∀ tr, tr.any isRouted = true ∧ tr.any isRefused = false → post tr (.ok ()))
    (herr : ∀ tr e, tr.any isRouted = false ∧ tr.any isRefused = true → post tr (.error e)) :
    Prog.Meets discipline post tr (sendToDLQ message dlqTopic originalTopic failure attempts) := by
  simp only [sendToDLQ,Prog.meets_bind,Prog.meets_perform]
  refine ⟨hclean,fun stack _ => ?_⟩
  refine meets_now (clean_cons hclean rfl rfl) ?_
  intro failedAt hready
  refine ⟨hready,?_⟩
  rintro (e | value) _
  · exact herr _ _ (refused_cons hready rfl rfl)
  · simp only [Prog.meets_bind,Prog.meets_perform]
    refine meets_now (clean_cons hready rfl rfl) ?_
    intro timestamp hencoded
    refine ⟨hencoded,?_⟩
    rintro (e | ⟨⟩) _
    · exact herr _ _ (refused_cons hencoded rfl rfl)
    · exact hok _ (routed_cons hencoded rfl rfl)

theorem meets_route {quarantineSink : Bool} {lastErr : Option GoError} {attemptsUsed : Int64}
    {post : Trace → Except GoError Unit → Prop} (hclean : Clean tr)
    (hpost : ∀ tr e, (tr.any isRouted = true ∧ tr.any isRefused = false) ∨
      (tr.any isRouted = false ∧ tr.any isRefused = true) → post tr (.error e)) :
    Prog.Meets discipline post tr
      (route cfg consumerTopic message quarantineSink lastErr attemptsUsed) := by
  simp only [route,Prog.meets_ite,Prog.meets_bind,Prog.meets_perform,Prog.meets_attempt]
  refine ⟨fun _ => meets_now hclean ?_,fun _ => ?_⟩
  · intro occurredAt hnow
    refine ⟨hnow,?_⟩
    rintro (e | ⟨⟩) _
    · exact hpost _ _ (.inr (refused_cons hnow rfl rfl))
    · exact hpost _ _ (.inl (routed_cons hnow rfl rfl))
  · refine meets_sendToDLQ hclean ?_ ?_
    · exact fun tr h => hpost _ _ (.inl h)
    · exact fun tr e h => hpost _ _ (.inr h)

theorem meets_consumeWithRetry {quarantineSink : Bool} :
    Prog.Meets discipline (Settled consumerTopic) []
      (consumeWithRetry cfg consumerTopic message quarantineSink) := by
  have hclean : Clean [] := ⟨rfl,rfl⟩
  simp only [consumeWithRetry,Prog.meets_ite,Prog.meets_bind,Prog.meets_fail]
  refine ⟨fun htopic => .inl ⟨htopic,hclean⟩,fun _ => meets_retryLoop hclean ?_⟩
  rintro tr (_ | e | ⟨lastErr,attemptsUsed⟩) hlooped
  · exact hlooped
  · exact .inr (.inr hlooped)
  · exact meets_route hlooped fun tr e h => .inr h

theorem meets_after_handled {α : Type} (p : M α) (h : tr.any isHandled = true) :
    Prog.Meets ⟨fun _ _ => True,fun _ _ => True⟩ (fun tr _ => tr.any isHandled = true) tr p := by
  refine Prog.meets_mono ?_ (Prog.meets_grows p tr)
  intro tr' _ hsuffix
  obtain ⟨ev,hev,hhandled⟩ := List.any_eq_true.mp h
  exact List.any_eq_true.mpr ⟨ev,hsuffix.subset hev,hhandled⟩

theorem meets_handled {quarantineSink : Bool} (htopic : consumerTopic ≠ "")
    (hroom : 0 < (budget cfg).maxAttempts.toInt) :
    Prog.Meets ⟨fun _ _ => True,fun _ _ => True⟩ (fun tr _ => tr.any isHandled = true) []
      (consumeWithRetry cfg consumerTopic message quarantineSink) := by
  obtain ⟨room,hroom⟩ := Nat.exists_eq_succ_of_ne_zero
    (show (budget cfg).maxAttempts.toInt.toNat ≠ 0 by omega)
  simp only [consumeWithRetry,if_neg htopic,hroom]
  exact ⟨trivial,fun _ _ => ⟨trivial,fun _ _ => meets_after_handled _ rfl⟩⟩

end Discipline

section Deliveries

variable {c : Consumer} {topic : String} {d : RabbitMQ.Publishing} {message : Message}

def AtMostOnce (history : Trace) : Prop :=
  history.countP isRouted ≤ 1 ∧ history.Pairwise fun a b => isRouted a = true → isHandled b = false

theorem atMostOnce_of_disciplined {tr : Trace} (h : Prog.Disciplined discipline tr) :
    AtMostOnce tr.reverse := by
  unfold AtMostOnce
  rw [List.countP_reverse,List.pairwise_reverse]
  induction tr with
  | nil => exact ⟨Nat.zero_le _,List.Pairwise.nil⟩
  | cons ev tr ih =>
    obtain ⟨hcount,hpair⟩ := ih h.2
    obtain ⟨op,ans⟩ := ev
    have hpre : discipline.pre tr op := h.1
    have hunrouted : isRouted ⟨op,ans⟩ = true ∨ isHandled ⟨op,ans⟩ = true →
        tr.any isRouted = false := by
      cases op with
      | now | wait | stack | marshal => simp [isRouted,isHandled]
      | handle | quarantine | publish => exact fun _ => hpre.1
    refine ⟨?_,List.Pairwise.cons ?_ hpair⟩
    · rw [List.countP_cons]
      split_ifs with hr
      · have hzero : tr.countP isRouted = 0 := by
          simpa [List.countP_eq_zero] using hunrouted (.inl hr)
        omega
      · exact hcount
    · intro ev hev hr
      by_contra hhandled
      have := hunrouted (.inr (by simpa using hhandled))
      simp_all

def Refused (c : Consumer) (topic : String) (d : RabbitMQ.Publishing) (os : List Oracle) : Prop :=
  c.consumerTopic = "" ∨ ∀ tr ∈ (consumeLoop c topic d os).dropLast, tr.any isRefused = true

theorem deliver_settled (message : Message) (o : Oracle) :
    Settled c.consumerTopic (deliver c message o).2 (deliver c message o).1 :=
  Prog.post_of_meets o (fun _ _ => trivial) meets_consumeWithRetry

theorem deliver_atMostOnce (o : Oracle) : AtMostOnce (deliver c message o).2.reverse :=
  atMostOnce_of_disciplined
    (Prog.disciplined_of_meets o (fun _ _ => trivial) meets_consumeWithRetry trivial)

theorem deliver_blank (o : Oracle) (h : c.consumerTopic = "") : (deliver c message o).2 = [] := by
  simp [deliver,consumeWithRetry,h]

theorem maxAttempts_pos (h : c.config.maxRetries ≠ Int64.maxValue) :
    0 < (budget c.config.normalize).maxAttempts.toInt := by
  have hne : c.config.maxRetries.toInt ≠ 2^63-1 := fun hmax => h (Int64.toInt_inj.mp hmax)
  have hlt := c.config.maxRetries.toInt_lt
  simp only [budget,Config.normalize]
  split_ifs with hle
  · decide
  · rw [Int64.le_iff_toInt_le] at hle
    have hone : (1 : Int64).toInt = 1 := rfl
    have hzero : (0 : Int64).toInt = 0 := rfl
    rw [Int64.toInt_add,hone,Int.bmod_eq_of_le (by omega) (by omega)]
    omega

theorem deliver_handled (o : Oracle) (hmax : c.config.maxRetries ≠ Int64.maxValue)
    (htopic : c.consumerTopic ≠ "") : (deliver c message o).2.any isHandled = true :=
  Prog.post_of_meets o (fun _ _ => trivial) (meets_handled htopic (maxAttempts_pos hmax))

theorem consumeLoop_cons (o : Oracle) (os : List Oracle) :
    consumeLoop c topic d (o :: os) = (deliver c (RabbitMQ.consume topic d) o).2 ::
      match (deliver c (RabbitMQ.consume topic d) o).1 with
        | .error _ => consumeLoop c topic d os
        | .ok _ => [] := rfl

theorem forall_mem_consumeLoop {P : Trace → Prop} (h : ∀ message o, P (deliver c message o).2)
    (os : List Oracle) : ∀ tr ∈ consumeLoop c topic d os, P tr := by
  induction os with
  | nil => simp [consumeLoop]
  | cons o os ih =>
    rw [consumeLoop_cons]
    intro tr htr
    rcases List.mem_cons.mp htr with rfl | htr
    · exact h _ o
    · cases hr : (deliver c (RabbitMQ.consume topic d) o).1 with
      | ok => simp [hr] at htr
      | error e => exact ih tr (by simpa [hr] using htr)

theorem requeued_settled {os : List Oracle} :
    ∀ tr ∈ (consumeLoop c topic d os).dropLast, ∃ e, Settled c.consumerTopic tr (.error e) := by
  induction os with
  | nil => simp [consumeLoop]
  | cons o os ih =>
    have hsettled := deliver_settled (c := c) (RabbitMQ.consume topic d) o
    rw [consumeLoop_cons]
    cases hr : (deliver c (RabbitMQ.consume topic d) o).1 with
    | ok => simp
    | error e =>
      intro tr htr
      cases hrest : consumeLoop c topic d os with
      | nil => simp [hrest] at htr
      | cons next rest =>
        rw [hrest] at htr ih
        rcases List.mem_cons.mp htr with rfl | htr
        · exact ⟨e,hr ▸ hsettled⟩
        · exact ih tr htr

theorem unrouted_of_refused {os : List Oracle} (h : Refused c topic d os) :
    ∀ tr ∈ (consumeLoop c topic d os).dropLast, tr.any isRouted = false := by
  intro tr htr
  rcases h with htopic | hrefused
  · have hblank := forall_mem_consumeLoop (P := fun tr => tr = [])
      (fun _ o => deliver_blank o htopic) os tr (List.mem_of_mem_dropLast htr)
    simp [hblank]
  · have href := hrefused tr htr
    obtain ⟨e,⟨_,hclean⟩ | ⟨_,hr⟩ | ⟨hr,_⟩⟩ := requeued_settled tr htr
    · exact hclean.1
    · simp [hr] at href
    · exact hr

theorem history_atMostOnce {os : List Oracle} (h : Refused c topic d os) :
    AtMostOnce ((consumeLoop c topic d os).flatMap List.reverse) := by
  have hunrouted := unrouted_of_refused h
  have hlast : ∀ tr ∈ consumeLoop c topic d os, AtMostOnce tr.reverse :=
    forall_mem_consumeLoop (fun _ o => deliver_atMostOnce o) os
  generalize consumeLoop c topic d os = ts at hunrouted hlast
  rcases List.eq_nil_or_concat' ts with rfl | ⟨earlier,last,rfl⟩
  · exact ⟨Nat.zero_le _,List.Pairwise.nil⟩
  · rw [List.dropLast_concat] at hunrouted
    have hnone : ∀ ev ∈ earlier.flatMap List.reverse, isRouted ev = false := by
      intro ev hev
      obtain ⟨tr,htr,hev⟩ := List.mem_flatMap.mp hev
      simpa using List.any_eq_false.mp (hunrouted tr htr) ev (List.mem_reverse.mp hev)
    obtain ⟨hcount,hpair⟩ := hlast last (by simp)
    have hzero : (earlier.flatMap List.reverse).countP isRouted = 0 :=
      List.countP_eq_zero.mpr fun ev hev => by simp [hnone ev hev]
    rw [List.flatMap_append,List.flatMap_singleton]
    constructor
    · rw [List.countP_append,hzero]
      omega
    · refine List.pairwise_append.mpr ⟨?_,hpair,?_⟩
      · exact List.pairwise_of_forall_mem_list fun a ha b _ hr => by simp [hnone a ha] at hr
      · exact fun a ha b _ hr => by simp [hnone a ha] at hr

theorem refused_of_atMostOnce {os : List Oracle} (hmax : c.config.maxRetries ≠ Int64.maxValue)
    (h : AtMostOnce ((consumeLoop c topic d os).flatMap List.reverse)) : Refused c topic d os := by
  refine or_iff_not_imp_left.mpr ?_
  intro htopic tr htr
  obtain ⟨e,⟨hblank,_⟩ | ⟨hrouted,_⟩ | ⟨_,href⟩⟩ := requeued_settled tr htr
  · exact absurd hblank htopic
  · exfalso
    have hhandled : ∀ tr ∈ consumeLoop c topic d os, tr.any isHandled = true :=
      forall_mem_consumeLoop (fun _ o => deliver_handled o hmax htopic) os
    generalize consumeLoop c topic d os = ts at h htr hhandled
    rcases List.eq_nil_or_concat' ts with rfl | ⟨earlier,last,rfl⟩
    · simp at htr
    · rw [List.dropLast_concat] at htr
      rw [List.flatMap_append,List.flatMap_singleton] at h
      obtain ⟨routed,hmem,hr⟩ := List.any_eq_true.mp hrouted
      obtain ⟨handled,hmem',hh⟩ := List.any_eq_true.mp (hhandled last (by simp))
      have hclash := (List.pairwise_append.mp h.2).2.2 routed
        (List.mem_flatMap.mpr ⟨tr,htr,List.mem_reverse.mpr hmem⟩) handled
        (List.mem_reverse.mpr hmem') hr
      simp [hh] at hclash
  · exact href

theorem dead_lettered_once_iff (c : Consumer) (topic : String) (d : RabbitMQ.Publishing)
    (os : List Oracle) :
    (Refused c topic d os → AtMostOnce ((consumeLoop c topic d os).flatMap List.reverse)) ∧
    (c.config.maxRetries ≠ Int64.maxValue →
      AtMostOnce ((consumeLoop c topic d os).flatMap List.reverse) → Refused c topic d os) :=
  ⟨history_atMostOnce,refused_of_atMostOnce⟩

def scripted (handled : Attempt) (published : Except GoError Unit) : Oracle
  | _, .now => 0
  | _, .handle .. => handled
  | _, .wait _ => .ok ()
  | _, .quarantine _ => .ok ()
  | _, .stack => ""
  | _, .marshal _ => .ok []
  | _, .publish .. => published

def onceRetried : Consumer where
  config := ⟨1,1,1,1,5,1,""⟩
  consumerTopic := "orders"
  quarantineSink := false

def orderPlaced : RabbitMQ.Publishing := ⟨"m-1","application/json",[],0,∅⟩

def failing : Attempt := .finished (some (.text "boom"))

theorem dead_lettered_once_iff_when_publish_refused :
    ((consumeLoop onceRetried "orders" orderPlaced
      [scripted failing (.error (.text "broker down")),scripted failing (.ok ())]).flatMap
        List.reverse).countP isRouted = 1 ∧
    AtMostOnce ((consumeLoop onceRetried "orders" orderPlaced
      [scripted failing (.error (.text "broker down")),scripted failing (.ok ())]).flatMap
        List.reverse) :=
  ⟨by decide +kernel,(dead_lettered_once_iff onceRetried "orders" orderPlaced _).1
    (.inr (by decide +kernel))⟩

theorem requeued_twice_dead_lettered :
    ((consumeLoop onceRetried "orders" orderPlaced
      [scripted failing (.ok ()),scripted failing (.ok ())]).flatMap
        List.reverse).countP isRouted = 2 ∧
    ¬ AtMostOnce ((consumeLoop onceRetried "orders" orderPlaced
      [scripted failing (.ok ()),scripted failing (.ok ())]).flatMap List.reverse) := by
  have htwo : ((consumeLoop onceRetried "orders" orderPlaced
      [scripted failing (.ok ()),scripted failing (.ok ())]).flatMap
        List.reverse).countP isRouted = 2 := by decide +kernel
  refine ⟨htwo,fun h => ?_⟩
  have hle := h.1
  rw [htwo] at hle
  omega

end Deliveries

end Nimburion.EventBus.RetryDLQ
