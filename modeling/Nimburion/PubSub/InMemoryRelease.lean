import Nimburion.PubSub.InMemorySafety

namespace Nimburion.PubSub
open Transition
open Interaction.Machine (of_getElem?_set)

-- messages are told apart by their Publish, so a list without repetition has each call once
structure Faithful (w : World) : Prop where
  running : w.panicked = false
  received : ∀ {sub : ℕ} {s : InMemorySubscriber}, w.subs[sub]? = some s →
    (s.received.map Prod.fst).Nodup ∧ ∀ x ∈ s.received, x.2.topic = s.topic ∧
      ∃ call, w.publishes[x.1]? = some call ∧ x.2 = call.msg
  delivered : ∀ {p : ℕ} {call : Publish} {closedThen : List Bool},
    w.publishes[p]? = some call → call.phase = .returned none closedThen false →
      ∀ {sub : ℕ} {s : InMemorySubscriber}, sub < call.began → w.subs[sub]? = some s → s.topic = call.msg.topic →
        closedThen[sub]? = some false →
          (p,call.msg) ∈ s.accepted ∨ (sub,.full) ∈ call.outcomes

def Released (w : World) : Prop :=
  ∀ (sub : ℕ) (s : InMemorySubscriber), w.subs[sub]? = some s → s.closed = true → ∀ topic, (topic,sub) ∉ w.bus.subscribers

-- inMemorySubscriber.close finds the subscriber out of the map
def ReleasedFirst (w : World) : Label → Prop
  | .closeSubscriber sub => ∀ topic, (topic,sub) ∉ w.bus.subscribers
  | .unsubscribed => ∀ sub, w.locked = some sub → ∀ topic, (topic,sub) ∉ w.bus.subscribers
  | _ => True

section Release

variable {w w' : World} {sub : ℕ}

theorem Inv.faithful (h : Inv w) : Faithful w where
  running := h.running
  received {sub s} hs := by
    have haccepted : (s.received.map Prod.fst ++ s.ch.buffer.map Prod.fst).Nodup := by
      have honce := (h.sub hs).once
      rwa [InMemorySubscriber.accepted,List.map_append] at honce
    refine ⟨(List.nodup_append.mp haccepted).1,fun x hx => ?_⟩
    obtain ⟨call,hcall,hmsg,htopic,-⟩ := (h.sub hs).own x (List.mem_append_left _ hx)
    exact ⟨hmsg ▸ htopic,call,hcall,hmsg⟩
  delivered {p call closedThen} hcall hphase {sub s} hbegan hs htopic hopen := by
    have hcovered := (h.call hcall).covered sub s hbegan hs htopic
    simpa [Publish.Covers,Publish.Reached,hphase,hopen] using hcovered

theorem released_of (h : Released w) (hheld : w'.bus.subscribers ⊆ w.bus.subscribers)
    (hclosed : ∀ (i : ℕ) (s' : InMemorySubscriber), w'.subs[i]? = some s' →
      s'.closed = true → ∃ s : InMemorySubscriber, w.subs[i]? = some s ∧ s.closed = true) : Released w' := by
  intro i s' hi hc topic hmem
  obtain ⟨s,hs,hsc⟩ := hclosed i s' hi hc
  exact h i s hs hsc topic (hheld hmem)

theorem released_of_eq (h : Released w) (hheld : w'.bus.subscribers ⊆ w.bus.subscribers)
    (hsubs : w'.subs = w.subs) : Released w' :=
  released_of h hheld fun _ s hi hc => ⟨s,hsubs ▸ hi,hc⟩

theorem released_set {s s' : InMemorySubscriber} (h : Released w) (hs : w.subs[sub]? = some s)
    (hclosed : s'.closed = s.closed) (hbus : w'.bus = w.bus) (hsubs : w'.subs = w.subs.set sub s') :
    Released w' := by
  refine released_of h (by rw [hbus]; exact List.Subset.refl _) fun i s₀ hi hc => ?_
  rw [hsubs] at hi
  rcases of_getElem?_set hi with ⟨rfl,rfl⟩ | ⟨-,hi⟩
  · exact ⟨s,hs,hclosed ▸ hc⟩
  · exact ⟨s₀,hi,hc⟩

theorem released_close (hinv : Inv w) (h : Released w) (sub : ℕ) :
    Released (w.close sub) ↔ ∀ topic, (topic,sub) ∉ w.bus.subscribers := by
  obtain ⟨hbus,-,-⟩ := close_frame hinv sub
  constructor
  · intro hclose topic hmem
    obtain ⟨s,hs,-⟩ := hinv.held hmem
    rw [world_close_eq hinv hs] at hclose
    have hget : (w.setSub sub { s with closed := true, ch := { s.ch with closed := true } }).subs[sub]?
        = some { s with closed := true, ch := { s.ch with closed := true } } :=
      List.getElem?_set_self (List.getElem?_eq_some_iff.mp hs).1
    exact hclose sub _ hget rfl topic hmem
  · intro hfree i s hi hc topic hmem
    rw [hbus] at hmem
    cases hs : w.subs[sub]? with
    | none =>
      rw [World.close,hs] at hi
      exact h i s hi hc topic hmem
    | some s₀ =>
      rw [world_close_eq hinv hs] at hi
      rcases of_getElem?_set hi with ⟨rfl,-⟩ | ⟨-,hi⟩
      · exact hfree topic hmem
      · exact h i s hi hc topic hmem

theorem released_subscribe (h : Released w) (topic : Topic) :
    Released (w.subscribe topic) := by
  cases hopen : w.bus.closed with
  | true => simpa [World.subscribe,InMemoryBus.subscribe,hopen] using h
  | false =>
    rw [subscribe_open hopen]
    intro i s hi hc topic' hmem
    rcases of_getElem?_concat hi with hi | ⟨-,rfl⟩
    · rcases List.mem_append.mp hmem with hmem | hnew
      · exact h i s hi hc topic' hmem
      · simp only [List.mem_singleton,Prod.mk.injEq] at hnew
        simp [hnew.2] at hi
    · exact absurd hc Bool.false_ne_true

theorem trySend_closed (s : InMemorySubscriber) (x : ℕ × Message) :
    (s.trySend x).2.closed = s.closed := by
  unfold InMemorySubscriber.trySend
  split
  · rfl
  · split <;> rfl

theorem receive_closed {s s' : InMemorySubscriber} (h : s.receive = some s') :
    s'.closed = s.closed := by
  obtain ⟨⟨x,ch⟩,-,rfl⟩ := Option.map_eq_some_iff.mp h
  rfl

theorem released_step {label : Label} (hinv : Inv w) (h : Released w)
    (hstep : step w label = some w') : ReleasedFirst w label ↔ Released w' := by
  have hsame {w'' : World} (hbus : w''.bus = w.bus) (hsubs : w''.subs = w.subs) : Released w'' :=
    released_of_eq h (by rw [hbus]; exact List.Subset.refl _) hsubs
  cases taken_of_step hstep with
  | subscribe topic hfree => exact iff_of_true trivial (released_subscribe h topic)
  | publish msg ctxErr => exact iff_of_true trivial (hsame rfl rfl)
  | checkClosed hcall hphase hfree => exact iff_of_true trivial (hsame rfl rfl)
  | append err hcall hphase => exact iff_of_true trivial (hsame rfl rfl)
  | snapshot hcall hphase hfree horder => exact iff_of_true trivial (hsame rfl rfl)
  | trySend hcall hphase hs =>
    exact iff_of_true trivial (released_set h hs (trySend_closed _ _) rfl rfl)
  | finish hcall hphase => exact iff_of_true trivial (hsame rfl rfl)
  | unsubscribe topic sub hfree =>
    refine iff_of_true trivial ?_
    rcases unsubscribe_cases hfree topic sub with heq | ⟨i,-,-,-,heq⟩
    · rwa [heq]
    · rw [heq]
      exact released_of_eq h (List.filter_subset_self _) rfl
  | unsubscribed hlock =>
    simp only [ReleasedFirst,hlock,Option.some.injEq,forall_eq']
    exact (released_close hinv h _).symm
  | closeBus hfree horder =>
    refine iff_of_true trivial ?_
    cases hopen : w.bus.closed with
    | true => simpa [World.closeBus,InMemoryBus.close,hopen] using h
    | false =>
      rw [closeBus_open hopen]
      exact released_of_eq h (List.nil_subset _) rfl
  | closeNext hclosing =>
    refine iff_of_true trivial ((released_close hinv h _).mpr fun topic hmem => ?_)
    rw [hinv.shut (hinv.closing (by simp [hclosing]))] at hmem
    exact List.not_mem_nil hmem
  | closeSubscriber sub => exact (released_close hinv h sub).symm
  | receive hs hreceive =>
    have hclosed := receive_closed hreceive
    exact iff_of_true trivial (released_set h hs hclosed rfl rfl)

-- a step that is not there to take closes nothing that is held
theorem releasedFirst_of_stuck {label : Label} (hinv : Inv w) (hstep : step w label = none) :
    ReleasedFirst w label := by
  cases label with
  | closeSubscriber sub =>
    intro topic hmem
    obtain ⟨s,hs,-⟩ := hinv.held hmem
    have hlt := (List.getElem?_eq_some_iff.mp hs).1
    simp [step,hlt] at hstep
  | unsubscribed =>
    intro sub hlock
    simp [step,hlock] at hstep
  | _ => trivial

end Release

theorem inMemoryBus_iff (config : InMemoryConfig) (labels : List Label) :
    (∀ pre w, pre <+: labels → run step pre (newWorld config) = some w → Faithful w) ∧
      ((∀ pre w, pre <+: labels → run step pre (newWorld config) = some w →
          Faithful w ∧ Released w) ↔
        Along step ReleasedFirst labels (newWorld config)) := by
  have hinv {pre : List Label} {w : World} (hrun : run step pre (newWorld config) = some w) :
      Inv w :=
    run_reaches (fun _ _ _ h hstep => inv_step h hstep) (inv_newWorld config) hrun
  refine ⟨fun pre w _ hrun => (hinv hrun).faithful,?_⟩
  rw [← along_iff_reached (I := Inv) (Q := Released) (fun _ _ _ h hstep => inv_step h hstep)
    (fun _ _ _ hI hQ hstep => released_step hI hQ hstep)
    (fun _ _ hI _ hstep => releasedFirst_of_stuck hI hstep) (inv_newWorld config)
    (by intro sub s hs; simp [newWorld] at hs)]
  constructor
  · intro h pre w hpre hrun
    exact (h pre w hpre hrun).2
  · intro h pre w hpre hrun
    exact ⟨(hinv hrun).faithful,h pre w hpre hrun⟩

theorem closed_subscriber_held : ∃ w,
    run step [.subscribe "orders",.closeSubscriber 0] (newWorld ⟨0,false⟩) = some w ∧
      ¬Released w := by
  refine ⟨_,rfl,fun h => ?_⟩
  exact h 0 _ rfl rfl "orders" (List.mem_singleton.mpr rfl)

section Calls

variable {w w' : World}

-- Close after the subscriber left the bus, Unsubscribe under the topic that holds it
def InOrder (w : World) : Label → Prop
  | .closeSubscriber sub => ∀ topic, (topic,sub) ∉ w.bus.subscribers
  | .unsubscribe topic (some sub) => ∀ topic', (topic',sub) ∈ w.bus.subscribers → topic' = topic
  | _ => True

def LockedReleased (w : World) : Prop :=
  ∀ sub, w.locked = some sub → ∀ topic, (topic,sub) ∉ w.bus.subscribers

theorem lockedReleased_close (hinv : Inv w) (h : LockedReleased w) (sub : ℕ) :
    LockedReleased (w.close sub) := by
  obtain ⟨hbus,hlocked,-⟩ := close_frame hinv sub
  intro i hlock
  rw [hbus]
  exact h i (hlocked ▸ hlock)

theorem lockedReleased_unsubscribe (h : LockedReleased w) (hfree : w.locked = none) {topic : Topic}
    {sub : Option ℕ} (hcall : InOrder w (.unsubscribe topic sub)) :
    LockedReleased (w.unsubscribe topic sub) := by
  rcases unsubscribe_cases hfree topic sub with heq | ⟨i,rfl,-,-,heq⟩
  · rwa [heq]
  rw [heq]
  intro j hlock topic' hmem
  obtain rfl : i = j := by simpa using hlock
  obtain ⟨hmem,hkept⟩ := List.mem_filter.mp hmem
  obtain rfl := hcall topic' hmem
  simp at hkept

theorem lockedReleased_step {label : Label} (hinv : Inv w) (h : LockedReleased w)
    (hcall : InOrder w label) (hstep : step w label = some w') : LockedReleased w' := by
  have hunlocked {w'' : World} (hlock : w''.locked = none) : LockedReleased w'' := by
    intro sub hsub
    simp [hlock] at hsub
  cases taken_of_step hstep with
  | subscribe topic hfree =>
    refine hunlocked ?_
    cases hopen : w.bus.closed with
    | true => simp [World.subscribe,InMemoryBus.subscribe,hopen,hfree]
    | false => simp [subscribe_open hopen,hfree]
  | publish msg ctxErr => exact h
  | checkClosed _ _ _ => exact h
  | append _ _ _ => exact h
  | snapshot _ _ _ _ => exact h
  | trySend _ _ _ => exact h
  | finish _ _ => exact h
  | unsubscribe topic sub hfree => exact lockedReleased_unsubscribe h hfree hcall
  | unsubscribed hlock => exact hunlocked rfl
  | closeBus hfree _ =>
    refine hunlocked ?_
    cases hopen : w.bus.closed with
    | true => simp [World.closeBus,InMemoryBus.close,hopen,hfree]
    | false => simp [closeBus_open hopen,hfree]
  | closeNext _ => exact lockedReleased_close hinv h _
  | closeSubscriber sub => exact lockedReleased_close hinv h sub
  | receive _ _ => exact h

theorem inOrder_releasedFirst {config : InMemoryConfig} {labels : List Label}
    (h : Along step InOrder labels (newWorld config)) :
    Along step ReleasedFirst labels (newWorld config) := by
  refine along_imp (I := fun w => Inv w ∧ LockedReleased w) ?_ ?_ ⟨inv_newWorld config,?_⟩ h
  · intro w label hw hcall
    cases label with
    | closeSubscriber sub => exact hcall
    | unsubscribed => exact hw.2
    | _ => trivial
  · intro w label w' hw hcall hstep
    exact ⟨inv_step hw.1 hstep,lockedReleased_step hw.1 hw.2 hcall hstep⟩
  · intro sub hlock
    simp [newWorld] at hlock

end Calls

end Nimburion.PubSub
