import Nimburion.Lib.Interaction
import Nimburion.PubSub.InMemory

namespace Nimburion.PubSub
open Transition
open Interaction.Machine (of_getElem?_set)

theorem of_getElem?_concat {α : Type} {xs : List α} {x y : α} {i : ℕ}
    (h : (xs ++ [x])[i]? = some y) : xs[i]? = some y ∨ (i = xs.length ∧ y = x) := by
  rcases Nat.lt_trichotomy i xs.length with hlt | rfl | hgt
  · rw [List.getElem?_append_left hlt] at h
    exact .inl h
  · rw [List.getElem?_concat_length,Option.some.injEq] at h
    exact .inr ⟨rfl,h.symm⟩
  · have hlen := (List.getElem?_eq_some_iff.mp h).1
    simp at hlen
    omega

namespace Publish

-- the call can still send to the subscriber
def MaySend (call : Publish) (sub : ℕ) : Prop :=
  match call.phase with
  | .sending left => sub ∈ left
  | .returned .. => False
  | _ => True

def Reached (call : Publish) (p sub : ℕ) (s : InMemorySubscriber) : Prop :=
  (p,call.msg) ∈ s.accepted ∨ (sub,.full) ∈ call.outcomes

def Covers (call : Publish) (busClosed : Bool) (p sub : ℕ) (s : InMemorySubscriber) : Prop :=
  match call.phase with
  | .sending left => sub ∈ left ∨ s.closed = true ∨ busClosed = true ∨ call.Reached p sub s
  | .returned none closedThen busClosed =>
    closedThen[sub]? = some true ∨ busClosed = true ∨ call.Reached p sub s
  | _ => True

end Publish

structure SubOk (w : World) (sub : ℕ) (s : InMemorySubscriber) : Prop where
  channel : s.ch.closed = s.closed
  accounted : s.closed = true ∨ w.bus.closed = true ∨ w.locked = some sub ∨
    (s.topic,sub) ∈ w.bus.subscribers
  own : ∀ x ∈ s.accepted, ∃ call, w.publishes[x.1]? = some call ∧ x.2 = call.msg ∧
    call.msg.topic = s.topic ∧ ¬call.MaySend sub
  once : (s.accepted.map Prod.fst).Nodup

structure CallOk (w : World) (p : ℕ) (call : Publish) : Prop where
  began : call.began ≤ w.subs.length
  left : ∀ order, call.phase = .sending order → order.Nodup ∧
    ∀ sub ∈ order, ∃ s, w.subs[sub]? = some s ∧ s.topic = call.msg.topic
  covered : ∀ sub s, sub < call.began → w.subs[sub]? = some s → s.topic = call.msg.topic →
    call.Covers w.bus.closed p sub s

structure Inv (w : World) : Prop where
  running : w.panicked = false
  sub : ∀ {sub s}, w.subs[sub]? = some s → SubOk w sub s
  call : ∀ {p call}, w.publishes[p]? = some call → CallOk w p call
  held : ∀ {topic sub}, (topic,sub) ∈ w.bus.subscribers →
    ∃ s, w.subs[sub]? = some s ∧ s.topic = topic
  once : w.bus.subscribers.Nodup
  shut : w.bus.closed = true → w.bus.subscribers = []
  closing : w.closing ≠ [] → w.bus.closed = true

theorem inv_newWorld (config : InMemoryConfig) : Inv (newWorld config) where
  running := rfl
  sub h := by simp [newWorld] at h
  call h := by simp [newWorld] at h
  held h := by simp [newWorld,newInMemoryBus] at h
  once := by simp [newWorld,newInMemoryBus]
  shut _ := rfl
  closing h := absurd rfl h

section Later

structure InMemorySubscriber.Later (s s' : InMemorySubscriber) : Prop where
  topic : s'.topic = s.topic
  closed : s.closed = true → s'.closed = true
  accepted : s.accepted ⊆ s'.accepted

theorem InMemorySubscriber.Later.refl (s : InMemorySubscriber) : s.Later s :=
  ⟨rfl,fun h => h,List.Subset.refl _⟩

-- what no step takes back of the subscribers and the bus
structure World.Later (w w' : World) : Prop where
  closed : w.bus.closed = true → w'.bus.closed = true
  subs : ∀ {sub : ℕ} {s : InMemorySubscriber}, w.subs[sub]? = some s →
    ∃ s', w'.subs[sub]? = some s' ∧ s.Later s'

variable {w w' : World} {p sub : ℕ} {call : Publish} {s s' : InMemorySubscriber}

theorem World.Later.of_eq (hbus : w'.bus.closed = w.bus.closed) (hsubs : w'.subs = w.subs) :
    w.Later w' where
  closed h := hbus ▸ h
  subs {_ s} h := ⟨s,hsubs ▸ h,.refl s⟩

theorem World.Later.of_set (hs : w.subs[sub]? = some s) (hlater : s.Later s')
    (hclosed : w.bus.closed = true → w'.bus.closed = true) (hsubs : w'.subs = w.subs.set sub s') :
    w.Later w' where
  closed := hclosed
  subs {sub' s₀} h := by
    rw [hsubs]
    by_cases hsub : sub = sub'
    · subst hsub
      rw [hs,Option.some.injEq] at h
      subst h
      exact ⟨s',List.getElem?_set_self (List.getElem?_eq_some_iff.mp hs).1,hlater⟩
    · exact ⟨s₀,(List.getElem?_set_ne hsub).trans h,.refl s₀⟩

theorem Publish.Reached.later (h : call.Reached p sub s) (hlater : s.Later s') :
    call.Reached p sub s' :=
  h.imp_left fun hmem => hlater.accepted hmem

theorem Publish.Covers.later {busClosed busClosed' : Bool} (h : call.Covers busClosed p sub s)
    (hlater : s.Later s') (hclosed : busClosed = true → busClosed' = true) :
    call.Covers busClosed' p sub s' := by
  unfold Publish.Covers at h ⊢
  split at h
  · exact h.imp_right (Or.imp hlater.closed (Or.imp hclosed fun h => h.later hlater))
  · exact h.imp_right (Or.imp_right fun h => h.later hlater)
  · trivial

theorem CallOk.later (h : CallOk w p call) (hlater : w.Later w') : CallOk w' p call where
  began := by
    by_contra hlt
    have hlast : w'.subs.length < w.subs.length := by
      have := h.began
      omega
    obtain ⟨s,hs⟩ : ∃ s, w.subs[w'.subs.length]? = some s := ⟨_,List.getElem?_eq_getElem hlast⟩
    obtain ⟨s',hs',-⟩ := hlater.subs hs
    simp at hs'
  left order hphase := by
    obtain ⟨hnodup,hleft⟩ := h.left order hphase
    refine ⟨hnodup,fun sub hsub => ?_⟩
    obtain ⟨s,hs,htopic⟩ := hleft sub hsub
    obtain ⟨s',hs',hl⟩ := hlater.subs hs
    exact ⟨s',hs',hl.topic.trans htopic⟩
  covered sub s' hsub hs' htopic := by
    obtain ⟨s,hs⟩ : ∃ s, w.subs[sub]? = some s :=
      ⟨_,List.getElem?_eq_getElem (Nat.lt_of_lt_of_le hsub h.began)⟩
    obtain ⟨s'',hs'',hl⟩ := hlater.subs hs
    rw [hs',Option.some.injEq] at hs''
    subst hs''
    exact (h.covered sub s hsub hs (hl.topic ▸ htopic)).later hl hlater.closed

end Later

section Advances

-- a record of the same call, further on
structure Publish.Advances (call call' : Publish) : Prop where
  msg : call'.msg = call.msg
  maySend : ∀ {sub}, call'.MaySend sub → call.MaySend sub

theorem Publish.Advances.refl (call : Publish) : call.Advances call := ⟨rfl,fun h => h⟩

def World.Advances (w w' : World) : Prop :=
  ∀ (p : ℕ) (call : Publish), w.publishes[p]? = some call →
    ∃ call', w'.publishes[p]? = some call' ∧ call.Advances call'

variable {w w' : World} {p sub : ℕ} {call call' : Publish} {s s' : InMemorySubscriber}

theorem World.Advances.of_eq (h : w'.publishes = w.publishes) : w.Advances w' :=
  fun _ call hcall => ⟨call,h ▸ hcall,.refl call⟩

theorem World.Advances.of_set (hcall : w.publishes[p]? = some call) (hadv : call.Advances call')
    (h : w'.publishes = w.publishes.set p call') : w.Advances w' := by
  intro q call₀ hcall₀
  rw [h]
  by_cases hp : p = q
  · subst hp
    rw [hcall,Option.some.injEq] at hcall₀
    subst hcall₀
    exact ⟨call',List.getElem?_set_self (List.getElem?_eq_some_iff.mp hcall).1,hadv⟩
  · exact ⟨call₀,(List.getElem?_set_ne hp).trans hcall₀,.refl call₀⟩

theorem own_advances (hadv : w.Advances w') {x : ℕ × Message} {topic : Topic}
    (h : ∃ call, w.publishes[x.1]? = some call ∧ x.2 = call.msg ∧ call.msg.topic = topic ∧
      ¬call.MaySend sub) :
    ∃ call, w'.publishes[x.1]? = some call ∧ x.2 = call.msg ∧ call.msg.topic = topic ∧
      ¬call.MaySend sub := by
  obtain ⟨call,hcall,hmsg,htopic,hsent⟩ := h
  obtain ⟨call',hcall',ha⟩ := hadv _ call hcall
  exact ⟨call',hcall',hmsg.trans ha.msg.symm,ha.msg ▸ htopic,fun hmay => hsent (ha.maySend hmay)⟩

theorem SubOk.moved (h : SubOk w sub s) (hadv : w.Advances w') (hlater : s.Later s')
    (hchannel : s'.ch.closed = s'.closed) (hsame : s'.accepted = s.accepted)
    (haccounted : s'.closed = true ∨ w'.bus.closed = true ∨ w'.locked = some sub ∨
      (s'.topic,sub) ∈ w'.bus.subscribers) : SubOk w' sub s' where
  channel := hchannel
  accounted := haccounted
  own x hx := by
    rw [hlater.topic]
    exact own_advances hadv (h.own x (hsame ▸ hx))
  once := hsame ▸ h.once

theorem SubOk.same (h : SubOk w sub s) (hadv : w.Advances w')
    (haccounted : s.closed = true ∨ w'.bus.closed = true ∨ w'.locked = some sub ∨
      (s.topic,sub) ∈ w'.bus.subscribers) : SubOk w' sub s :=
  h.moved hadv (.refl s) h.channel rfl haccounted

theorem Inv.held_later {topic : Topic} (h : Inv w) (hlater : w.Later w')
    (hheld : (topic,sub) ∈ w.bus.subscribers) : ∃ s, w'.subs[sub]? = some s ∧ s.topic = topic := by
  obtain ⟨s,hs,htopic⟩ := h.held hheld
  obtain ⟨s',hs',hl⟩ := hlater.subs hs
  exact ⟨s',hs',hl.topic.trans htopic⟩

end Advances

section Steps

variable {w : World} {p sub : ℕ} {call : Publish} {s s' : InMemorySubscriber} {left : List ℕ}

theorem inv_setPhase {phase : Phase} (h : Inv w) (hcall : w.publishes[p]? = some call)
    (hadv : call.Advances { call with phase := phase })
    (hok : CallOk w p { call with phase := phase }) : Inv (w.setPhase p call phase) where
  running := h.running
  sub hs := (h.sub hs).same (.of_set hcall hadv rfl) (h.sub hs).accounted
  call hp := by
    rcases of_getElem?_set hp with ⟨rfl,rfl⟩ | ⟨-,hp⟩
    · exact hok.later (.of_eq rfl rfl)
    · exact (h.call hp).later (.of_eq rfl rfl)
  held := h.held
  once := h.once
  shut := h.shut
  closing := h.closing

-- the subscriber took nothing in
theorem inv_setSub (h : Inv w) (hs : w.subs[sub]? = some s) (hlater : s.Later s')
    (hchannel : s'.ch.closed = s'.closed) (hsame : s'.accepted = s.accepted) :
    Inv (w.setSub sub s') := by
  have hset : w.Later (w.setSub sub s') := .of_set hs hlater (fun hc => hc) rfl
  refine ⟨h.running,?_,fun hp => (h.call hp).later hset,?_,h.once,h.shut,h.closing⟩
  · intro i s₀ hi
    rcases of_getElem?_set hi with ⟨rfl,rfl⟩ | ⟨-,hi⟩
    · refine (h.sub hs).moved (.of_eq rfl) hlater hchannel hsame ?_
      rw [hlater.topic]
      exact (h.sub hs).accounted.imp_left hlater.closed
    · exact (h.sub hi).same (.of_eq rfl) (h.sub hi).accounted
  · exact fun hheld => h.held_later hset hheld

-- the lock is given back, or the list of Bus.Close gets shorter
theorem inv_release {locked : Option ℕ} {closing : List ℕ} (h : Inv w)
    (hlocked : ∀ i s, w.subs[i]? = some s → w.locked = some i →
      locked = some i ∨ s.closed = true)
    (hclosing : closing ≠ [] → w.bus.closed = true) :
    Inv { w with locked := locked, closing := closing } where
  running := h.running
  sub {i s} hi := by
    refine (h.sub hi).same (.of_eq rfl) ?_
    rcases (h.sub hi).accounted with hclosed | hbus | hlock | hheld
    · exact .inl hclosed
    · exact .inr (.inl hbus)
    · exact (hlocked i s hi hlock).elim (fun hl => .inr (.inr (.inl hl))) .inl
    · exact .inr (.inr (.inr hheld))
  call hp := (h.call hp).later (.of_eq rfl rfl)
  held := h.held
  once := h.once
  shut := h.shut
  closing := hclosing

theorem close_eq (hchannel : s.ch.closed = s.closed) :
    s.close = some { s with closed := true, ch := { s.ch with closed := true } } := by
  obtain ⟨topic,closed,⟨capacity,buffer,chClosed⟩,received⟩ := s
  cases closed with
  | true => simpa [InMemorySubscriber.close] using hchannel
  | false => simp_all [InMemorySubscriber.close,Channel.close]

theorem world_close_eq (h : Inv w) (hs : w.subs[sub]? = some s) :
    w.close sub =
      w.setSub sub { s with closed := true, ch := { s.ch with closed := true } } := by
  simp [World.close,hs,close_eq (h.sub hs).channel]

theorem inv_close (h : Inv w) (sub : ℕ) : Inv (w.close sub) := by
  cases hs : w.subs[sub]? with
  | none => simpa [World.close,hs] using h
  | some s =>
    rw [world_close_eq h hs]
    exact inv_setSub h hs ⟨rfl,fun _ => rfl,List.Subset.refl _⟩ rfl rfl

theorem close_closed (h : Inv w) {i : ℕ} (hi : (w.close i).subs[i]? = some s) :
    s.closed = true := by
  cases hs : w.subs[i]? with
  | none => simp [World.close,hs] at hi
  | some s₀ =>
    rw [world_close_eq h hs] at hi
    rcases of_getElem?_set hi with ⟨-,rfl⟩ | ⟨hne,-⟩
    · rfl
    · exact absurd rfl hne

theorem close_frame (h : Inv w) (sub : ℕ) :
    (w.close sub).bus = w.bus ∧ (w.close sub).locked = w.locked ∧
      (w.close sub).closing = w.closing := by
  cases hs : w.subs[sub]? with
  | none => simp [World.close,hs]
  | some s =>
    rw [world_close_eq h hs]
    exact ⟨rfl,rfl,rfl⟩

theorem inv_unsubscribed (h : Inv w) (hlock : w.locked = some sub) :
    Inv { w.close sub with locked := none } := by
  obtain ⟨-,hlocked,-⟩ := close_frame h sub
  refine inv_release (inv_close h sub) (fun i s hi hl => .inr ?_) (inv_close h sub).closing
  rw [hlocked,hlock,Option.some.injEq] at hl
  subst hl
  exact close_closed h hi

theorem inv_closeNext {closing : List ℕ} (h : Inv w) (hclosing : w.closing = sub :: closing) :
    Inv { w.close sub with closing := closing } := by
  obtain ⟨hbus,-,-⟩ := close_frame h sub
  refine inv_release (inv_close h sub) (fun i s _ hl => .inl hl) fun _ => ?_
  rw [hbus]
  exact h.closing (by simp [hclosing])

theorem inv_receive (h : Inv w) (hs : w.subs[sub]? = some s) (hr : s.receive = some s') :
    Inv (w.setSub sub s') := by
  obtain ⟨⟨x,ch⟩,hch,rfl⟩ := Option.map_eq_some_iff.mp hr
  obtain ⟨hbuffer,hclosed⟩ := Channel.receive_eq_some hch
  have hsame : s.received ++ [x] ++ ch.buffer = s.received ++ s.ch.buffer := by
    simp [hbuffer]
  refine inv_setSub h hs ⟨rfl,fun hc => hc,fun y hy => ?_⟩ (hclosed.trans (h.sub hs).channel) hsame
  change y ∈ s.received ++ [x] ++ ch.buffer
  rw [hsame]
  exact hy

theorem trySend_cases (hchannel : s.ch.closed = s.closed) (x : ℕ × Message) :
    (s.closed = true ∧ s.trySend x = (.closed,s)) ∨
      (s.ch.capacity ≤ s.ch.buffer.length ∧ s.trySend x = (.full,s)) ∨
      s.trySend x = (.sent,{ s with ch := { s.ch with buffer := s.ch.buffer ++ [x] } }) := by
  cases hc : s.closed with
  | true => exact .inl ⟨rfl,by simp [InMemorySubscriber.trySend,hc]⟩
  | false =>
    right
    rcases Channel.offer_open (hchannel.trans hc) x with ⟨hfull,hroom⟩ | hsent
    · exact .inl ⟨hroom,by simp [InMemorySubscriber.trySend,hc,hfull]⟩
    · exact .inr (by simp [InMemorySubscriber.trySend,hc,hsent])

theorem served_advances (hphase : call.phase = .sending (sub :: left)) (outcome : Outcome) :
    call.Advances (call.served sub left outcome) where
  msg := rfl
  maySend {i} hmay := by
    have hleft : i ∈ left := hmay
    simp only [Publish.MaySend,hphase]
    exact List.mem_cons_of_mem _ hleft

theorem mem_of_sending (h : Inv w) (hcall : w.publishes[p]? = some call)
    (hphase : call.phase = .sending (sub :: left)) (hs : w.subs[sub]? = some s) :
    s.topic = call.msg.topic ∧ sub ∉ left ∧ left.Nodup ∧ p ∉ s.accepted.map Prod.fst := by
  obtain ⟨hnodup,hleft⟩ := (h.call hcall).left _ hphase
  obtain ⟨hnot,hrest⟩ := List.nodup_cons.mp hnodup
  obtain ⟨s₀,hs₀,htopic⟩ := hleft sub (by simp)
  rw [hs,Option.some.injEq] at hs₀
  subst hs₀
  refine ⟨htopic,hnot,hrest,fun hp => ?_⟩
  obtain ⟨x,hx,rfl⟩ := List.mem_map.mp hp
  obtain ⟨call₀,hcall₀,-,-,hsent⟩ := (h.sub hs).own x hx
  rw [hcall,Option.some.injEq] at hcall₀
  subst hcall₀
  exact hsent (by simp [Publish.MaySend,hphase])

-- the rest of the list is still to be served, and the one at its head now is
theorem covers_served {busClosed : Bool} {i : ℕ} {outcome : Outcome} {s₀ : InMemorySubscriber}
    (hphase : call.phase = .sending (sub :: left)) (h : call.Covers busClosed p i s₀)
    (hserved : i = sub → s₀.closed = true ∨ outcome = .full ∨ (p,call.msg) ∈ s₀.accepted) :
    (call.served sub left outcome).Covers busClosed p i s₀ := by
  simp only [Publish.Covers,hphase,List.mem_cons,Publish.Reached] at h
  simp only [Publish.Covers,Publish.served,Publish.Reached,List.mem_append,List.mem_singleton]
  rcases h with (rfl | hleft) | hclosed | hbus | hmem | hfull
  · rcases hserved rfl with hclosed | rfl | hmem
    · exact .inr (.inl hclosed)
    · exact .inr (.inr (.inr (.inr (.inr rfl))))
    · exact .inr (.inr (.inr (.inl hmem)))
  · exact .inl hleft
  · exact .inr (.inl hclosed)
  · exact .inr (.inr (.inl hbus))
  · exact .inr (.inr (.inr (.inl hmem)))
  · exact .inr (.inr (.inr (.inr (.inl hfull))))

theorem callOk_served {w' : World} {outcome : Outcome} (h : CallOk w' p call)
    (hphase : call.phase = .sending (sub :: left)) (hs : w'.subs[sub]? = some s)
    (hserved : s.closed = true ∨ outcome = .full ∨ (p,call.msg) ∈ s.accepted) :
    CallOk w' p (call.served sub left outcome) where
  began := h.began
  left order horder := by
    obtain rfl : left = order := by simpa [Publish.served] using horder
    obtain ⟨hnodup,hleft⟩ := h.left _ hphase
    exact ⟨(List.nodup_cons.mp hnodup).2,fun i hi => hleft i (List.mem_cons_of_mem _ hi)⟩
  covered i s₀ hbegan hi htopic := by
    refine covers_served hphase (h.covered i s₀ hbegan hi htopic) ?_
    rintro rfl
    rw [hs,Option.some.injEq] at hi
    exact hi ▸ hserved

theorem inv_served {outcome : Outcome} (h : Inv w) (hcall : w.publishes[p]? = some call)
    (hphase : call.phase = .sending (sub :: left)) (hs : w.subs[sub]? = some s)
    (hlater : s.Later s') (hchannel : s'.ch.closed = s'.closed)
    (hown : ∀ x ∈ s'.accepted, x ∈ s.accepted ∨ x = (p,call.msg))
    (honce : (s'.accepted.map Prod.fst).Nodup)
    (hserved : s'.closed = true ∨ outcome = .full ∨ (p,call.msg) ∈ s'.accepted) :
    Inv (w.setBoth p (call.served sub left outcome) sub s') := by
  obtain ⟨htopic,hnot,-,-⟩ := mem_of_sending h hcall hphase hs
  have hp := (List.getElem?_eq_some_iff.mp hcall).1
  have hl : w.Later (w.setBoth p (call.served sub left outcome) sub s') :=
    .of_set hs hlater (fun hc => hc) rfl
  have ha : w.Advances (w.setBoth p (call.served sub left outcome) sub s') :=
    .of_set hcall (served_advances hphase outcome) rfl
  refine ⟨h.running,?_,?_,?_,h.once,h.shut,h.closing⟩
  · intro i s₀ hi
    rcases of_getElem?_set hi with ⟨rfl,rfl⟩ | ⟨-,hi⟩
    · refine ⟨hchannel,?_,fun x hx => ?_,honce⟩
      · rw [hlater.topic]
        exact (h.sub hs).accounted.imp_left hlater.closed
      rw [hlater.topic]
      rcases hown x hx with hx | rfl
      · exact own_advances ha ((h.sub hs).own x hx)
      · exact ⟨call.served i left outcome,List.getElem?_set_self hp,rfl,htopic.symm,hnot⟩
    · exact (h.sub hi).same ha (h.sub hi).accounted
  · intro q call₀ hq
    rcases of_getElem?_set hq with ⟨rfl,rfl⟩ | ⟨-,hq⟩
    · exact callOk_served ((h.call hcall).later hl) hphase
        (List.getElem?_set_self (List.getElem?_eq_some_iff.mp hs).1) hserved
    · exact (h.call hq).later hl
  · exact fun hheld => h.held_later hl hheld

theorem inv_trySend (h : Inv w) (hcall : w.publishes[p]? = some call)
    (hphase : call.phase = .sending (sub :: left)) (hs : w.subs[sub]? = some s) :
    Inv (w.trySend p call sub left s) := by
  obtain ⟨-,-,-,hfresh⟩ := mem_of_sending h hcall hphase hs
  have hsub := h.sub hs
  -- trySend leaves the world as it records it, for it does not panic
  have hkeep {outcome : Outcome} {s' : InMemorySubscriber}
      (heq : s.trySend (p,call.msg) = (outcome,s')) (hsafe : outcome ≠ .panicked)
      (hinv : Inv (w.setBoth p (call.served sub left outcome) sub s')) :
      Inv (w.trySend p call sub left s) := by
    have hw : w.trySend p call sub left s = w.setBoth p (call.served sub left outcome) sub s' := by
      simp [World.trySend,heq,hsafe,World.setBoth]
    exact hw ▸ hinv
  rcases trySend_cases hsub.channel (p,call.msg) with ⟨hclosed,heq⟩ | ⟨-,heq⟩ | heq
  · exact hkeep heq (by decide) (inv_served h hcall hphase hs (.refl s) hsub.channel
      (fun x hx => .inl hx) hsub.once (.inl hclosed))
  · exact hkeep heq (by decide) (inv_served h hcall hphase hs (.refl s) hsub.channel
      (fun x hx => .inl hx) hsub.once (.inr (.inl rfl)))
  · have haccepted : InMemorySubscriber.accepted
        { s with ch := { s.ch with buffer := s.ch.buffer ++ [(p,call.msg)] } } =
          s.accepted ++ [(p,call.msg)] := by
      simp [InMemorySubscriber.accepted]
    refine hkeep heq (by decide) (inv_served h hcall hphase hs ⟨rfl,fun hc => hc,?_⟩ hsub.channel
      ?_ ?_ ?_)
    · rw [haccepted]
      exact List.subset_append_left _ _
    · intro x hx
      rw [haccepted] at hx
      simpa using hx
    · rw [haccepted,List.map_append,List.map_singleton]
      refine List.nodup_append.mpr ⟨hsub.once,by simp,fun q hq r hr => ?_⟩
      rw [List.mem_singleton.mp hr]
      rintro rfl
      exact hfresh hq
    · rw [haccepted]
      exact .inr (.inr (by simp))

theorem subscribe_open (hopen : w.bus.closed = false) (topic : Topic) :
    w.subscribe topic = { w with
      bus := { w.bus with subscribers := w.bus.subscribers ++ [(topic,w.subs.length)] }
      subs := w.subs ++ [⟨topic,false,Channel.make w.bus.subscriberBuffer,[]⟩] } := by
  simp [World.subscribe,InMemoryBus.subscribe,hopen]

theorem inv_subscribe (h : Inv w) (topic : Topic) : Inv (w.subscribe topic) := by
  cases hopen : w.bus.closed with
  | true => simpa [World.subscribe,InMemoryBus.subscribe,hopen] using h
  | false =>
    rw [subscribe_open hopen]
    have hget {i : ℕ} {s : InMemorySubscriber} (hi : w.subs[i]? = some s) :
        (w.subs ++ [⟨topic,false,Channel.make w.bus.subscriberBuffer,[]⟩])[i]? = some s := by
      rw [List.getElem?_append_left (List.getElem?_eq_some_iff.mp hi).1]
      exact hi
    refine ⟨h.running,?_,?_,?_,?_,fun hc => absurd hc (by simp [hopen]),h.closing⟩
    · intro i s hi
      rcases of_getElem?_concat hi with hi | ⟨rfl,rfl⟩
      · refine (h.sub hi).same (.of_eq rfl) ?_
        exact (h.sub hi).accounted.imp_right (Or.imp_right (Or.imp_right fun hheld =>
          List.mem_append_left _ hheld))
      · exact ⟨rfl,.inr (.inr (.inr (by simp))),fun x hx => by simp [InMemorySubscriber.accepted,
          Channel.make] at hx,by simp [InMemorySubscriber.accepted,Channel.make]⟩
    · intro p call hp
      exact (h.call hp).later ⟨fun hc => hc,fun hi => ⟨_,hget hi,.refl _⟩⟩
    · intro topic' i hheld
      rcases List.mem_append.mp hheld with hheld | hnew
      · obtain ⟨s,hs,ht⟩ := h.held hheld
        exact ⟨s,hget hs,ht⟩
      · simp only [List.mem_singleton,Prod.mk.injEq] at hnew
        obtain ⟨rfl,rfl⟩ := hnew
        exact ⟨_,List.getElem?_concat_length,rfl⟩
    · refine List.nodup_append.mpr ⟨h.once,by simp,fun entry hentry new hnew => ?_⟩
      rw [List.mem_singleton.mp hnew]
      rintro rfl
      obtain ⟨s,hs,-⟩ := h.held hentry
      simp at hs

theorem inv_publish (h : Inv w) (msg : Message) (ctxErr : Option GoError) :
    Inv (w.publish msg ctxErr) := by
  have hget {p : ℕ} {call : Publish} (hp : w.publishes[p]? = some call) :
      (w.publish msg ctxErr).publishes[p]? = some call := by
    simp only [World.publish]
    rw [List.getElem?_append_left (List.getElem?_eq_some_iff.mp hp).1]
    exact hp
  refine ⟨h.running,?_,?_,h.held,h.once,h.shut,h.closing⟩
  · intro i s hi
    exact (h.sub hi).same (fun p call hp => ⟨call,hget hp,.refl call⟩) (h.sub hi).accounted
  · intro p call hp
    rcases of_getElem?_concat hp with hp | ⟨rfl,rfl⟩
    · exact (h.call hp).later (.of_eq rfl rfl)
    · cases ctxErr with
      | none => exact ⟨Nat.le_refl _,fun order horder => by simp at horder,fun _ _ _ _ _ => trivial⟩
      | some err =>
        refine ⟨Nat.le_refl _,fun order horder => ?_,fun _ _ _ _ _ => trivial⟩
        simp [World.returning] at horder

theorem unsubscribe_cases (hfree : w.locked = none) (topic : Topic) (sub : Option ℕ) :
    w.unsubscribe topic sub = w ∨ ∃ i, sub = some i ∧ w.bus.closed = false ∧
      w.bus.subscribersOf topic ≠ [] ∧ w.unsubscribe topic sub = { w with
        bus := { w.bus with subscribers := w.bus.subscribers.filter (· ≠ (topic,i)) }
        locked := some i } := by
  cases hopen : w.bus.closed with
  | true => exact .inl (by simp [World.unsubscribe,InMemoryBus.unsubscribe,hopen])
  | false =>
    cases sub with
    | none => exact .inl (by simp [World.unsubscribe,InMemoryBus.unsubscribe,hopen])
    | some i =>
      by_cases htopic : w.bus.subscribersOf topic = []
      · left
        simp [World.unsubscribe,InMemoryBus.unsubscribe,hopen,htopic,← hfree]
      · exact .inr ⟨i,rfl,rfl,htopic,by simp [World.unsubscribe,InMemoryBus.unsubscribe,hopen,htopic]⟩

theorem inv_unsubscribe (h : Inv w) (hfree : w.locked = none) (topic : Topic) (sub : Option ℕ) :
    Inv (w.unsubscribe topic sub) := by
  rcases unsubscribe_cases hfree topic sub with heq | ⟨i,-,hopen,-,heq⟩
  · rwa [heq]
  rw [heq]
  refine ⟨h.running,?_,?_,?_,h.once.filter _,fun hc => absurd hc (by simp [hopen]),h.closing⟩
  · intro j s hj
    refine (h.sub hj).same (.of_eq rfl) ?_
    rcases (h.sub hj).accounted with hclosed | hbus | hlock | hheld
    · exact .inl hclosed
    · exact .inr (.inl hbus)
    · simp [hfree] at hlock
    · by_cases hij : i = j
      · exact .inr (.inr (.inl (congrArg some hij)))
      · right; right; right
        refine List.mem_filter.mpr ⟨hheld,?_⟩
        simp [Ne.symm hij]
  · intro p call hp
    exact (h.call hp).later (.of_eq rfl rfl)
  · intro topic' j hheld
    exact h.held (List.mem_filter.mp hheld).1

theorem closeBus_open (hopen : w.bus.closed = false) (order : List ℕ) :
    w.closeBus order = { w with
      bus := { w.bus with closed := true, subscribers := [] }
      closing := order } := by
  simp [World.closeBus,InMemoryBus.close,hopen]

theorem inv_closeBus (h : Inv w) (order : List ℕ) : Inv (w.closeBus order) := by
  cases hopen : w.bus.closed with
  | true => simpa [World.closeBus,InMemoryBus.close,hopen] using h
  | false =>
    rw [closeBus_open hopen]
    refine ⟨h.running,?_,?_,?_,?_,fun _ => rfl,fun _ => rfl⟩
    · intro i s hi
      exact (h.sub hi).same (.of_eq rfl) (.inr (.inl rfl))
    · intro p call hp
      exact (h.call hp).later ⟨fun _ => rfl,fun {_ s} hi => ⟨s,hi,.refl s⟩⟩
    · intro topic i hheld
      simp at hheld
    · exact List.nodup_nil

-- a phase that neither sends nor has returned nil
def Phase.Quiet : Phase → Prop
  | .sending _ => False
  | .returned none .. => False
  | _ => True

theorem quiet_checkClosed (w : World) : w.checkClosed.Quiet := by
  unfold World.checkClosed
  split <;> trivial

theorem quiet_append (w : World) (err : Option GoError) : (w.append err).Quiet := by
  unfold World.append
  cases err <;> split <;> trivial

theorem callOk_quiet {phase : Phase} (h : CallOk w p call) (hquiet : phase.Quiet) :
    CallOk w p { call with phase := phase } := by
  refine ⟨h.began,fun order horder => ?_,fun i s _ _ _ => ?_⟩
  · obtain rfl : phase = .sending order := horder
    exact hquiet.elim
  · unfold Publish.Covers
    match phase,hquiet with
    | .begun,_ => trivial
    | .checked,_ => trivial
    | .appended,_ => trivial
    | .returned (some err) _ _,_ => trivial

theorem inv_quiet {phase : Phase} (h : Inv w) (hcall : w.publishes[p]? = some call)
    (hmay : ∀ i, call.MaySend i) (hquiet : phase.Quiet) : Inv (w.setPhase p call phase) :=
  inv_setPhase h hcall ⟨rfl,fun _ => hmay _⟩ (callOk_quiet (h.call hcall) hquiet)

theorem subscribersOf_mem (b : InMemoryBus) (topic : Topic) (i : ℕ) :
    i ∈ b.subscribersOf topic ↔ (topic,i) ∈ b.subscribers := by
  simp [InMemoryBus.subscribersOf]

theorem subscribersOf_nodup {b : InMemoryBus} (h : b.subscribers.Nodup) (topic : Topic) :
    (b.subscribersOf topic).Nodup := by
  refine List.Nodup.map_on ?_ (h.filter _)
  intro x hx y hy hxy
  have hxt : x.1 = topic := by simpa using (List.mem_filter.mp hx).2
  have hyt : y.1 = topic := by simpa using (List.mem_filter.mp hy).2
  exact Prod.ext (hxt.trans hyt.symm) hxy

theorem inv_snapshot {order : List ℕ} (h : Inv w) (hcall : w.publishes[p]? = some call)
    (hphase : call.phase = .appended) (hfree : w.locked = none)
    (horder : order.Perm (w.bus.subscribersOf call.msg.topic)) :
    Inv (w.setPhase p call (.sending order)) := by
  refine inv_setPhase h hcall ⟨rfl,fun _ => by simp [Publish.MaySend,hphase]⟩
    ⟨(h.call hcall).began,fun order' heq => ?_,fun i s hbegan hi htopic => ?_⟩
  · obtain rfl : order = order' := by simpa using heq
    refine ⟨horder.nodup_iff.mpr (subscribersOf_nodup h.once _),fun i hi => ?_⟩
    exact h.held ((subscribersOf_mem ..).mp (horder.mem_iff.mp hi))
  · rcases (h.sub hi).accounted with hclosed | hbus | hlock | hheld
    · exact .inr (.inl hclosed)
    · exact .inr (.inr (.inl hbus))
    · simp [hfree] at hlock
    · rw [htopic] at hheld
      exact .inl (horder.mem_iff.mpr ((subscribersOf_mem ..).mpr hheld))

theorem inv_finish (h : Inv w) (hcall : w.publishes[p]? = some call)
    (hphase : call.phase = .sending []) : Inv (w.setPhase p call (w.returning none)) := by
  refine inv_setPhase h hcall ⟨rfl,fun hmay => hmay.elim⟩
    ⟨(h.call hcall).began,fun order heq => by simp [World.returning] at heq,
      fun i s hbegan hi htopic => ?_⟩
  have hcovered := (h.call hcall).covered i s hbegan hi htopic
  simp only [Publish.Covers,hphase,List.not_mem_nil,false_or] at hcovered
  refine hcovered.imp (fun hclosed => ?_) fun hrest => hrest
  simp [hi,hclosed]

-- what one step can do, with the guard it passed
inductive Taken (w : World) : Label → World → Prop where
  | subscribe (topic : Topic) (hfree : w.locked = none) :
    Taken w (.subscribe topic) (w.subscribe topic)
  | publish (msg : Message) (ctxErr : Option GoError) :
    Taken w (.publish msg ctxErr) (w.publish msg ctxErr)
  | checkClosed {p : ℕ} {call : Publish} (hcall : w.publishes[p]? = some call)
    (hphase : call.phase = .begun) (hfree : w.locked = none) :
    Taken w (.checkClosed p) (w.setPhase p call w.checkClosed)
  | append {p : ℕ} {call : Publish} (err : Option GoError) (hcall : w.publishes[p]? = some call)
    (hphase : call.phase = .checked) : Taken w (.append p err) (w.setPhase p call (w.append err))
  | snapshot {p : ℕ} {call : Publish} {order : List ℕ} (hcall : w.publishes[p]? = some call)
    (hphase : call.phase = .appended) (hfree : w.locked = none)
    (horder : order.Perm (w.bus.subscribersOf call.msg.topic)) :
    Taken w (.snapshot p order) (w.setPhase p call (.sending order))
  | trySend {p sub : ℕ} {call : Publish} {left : List ℕ} {s : InMemorySubscriber}
    (hcall : w.publishes[p]? = some call) (hphase : call.phase = .sending (sub :: left))
    (hs : w.subs[sub]? = some s) : Taken w (.trySend p) (w.trySend p call sub left s)
  | finish {p : ℕ} {call : Publish} (hcall : w.publishes[p]? = some call)
    (hphase : call.phase = .sending []) :
    Taken w (.finish p) (w.setPhase p call (w.returning none))
  | unsubscribe (topic : Topic) (sub : Option ℕ) (hfree : w.locked = none) :
    Taken w (.unsubscribe topic sub) (w.unsubscribe topic sub)
  | unsubscribed {sub : ℕ} (hlock : w.locked = some sub) :
    Taken w .unsubscribed { w.close sub with locked := none }
  | closeBus {order : List ℕ} (hfree : w.locked = none)
    (horder : order.Perm (w.bus.subscribers.map Prod.snd)) :
    Taken w (.closeBus order) (w.closeBus order)
  | closeNext {sub : ℕ} {closing : List ℕ} (hclosing : w.closing = sub :: closing) :
    Taken w .closeNext { w.close sub with closing := closing }
  | closeSubscriber (sub : ℕ) : Taken w (.closeSubscriber sub) (w.close sub)
  | receive {sub : ℕ} {s s' : InMemorySubscriber} (hs : w.subs[sub]? = some s)
    (hreceive : s.receive = some s') : Taken w (.receive sub) (w.setSub sub s')

theorem taken_of_step {w' : World} {label : Label} (hstep : step w label = some w') :
    Taken w label w' := by
  cases label with
  | subscribe topic =>
    obtain ⟨hfree,rfl⟩ : w.locked = none ∧ w.subscribe topic = w' := by simpa [step] using hstep
    exact .subscribe topic hfree
  | publish msg ctxErr =>
    obtain rfl : w.publish msg ctxErr = w' := by simpa [step] using hstep
    exact .publish msg ctxErr
  | checkClosed p =>
    obtain ⟨call,hcall,hrest⟩ := Option.bind_eq_some_iff.mp hstep
    obtain ⟨⟨hphase,hfree⟩,rfl⟩ : (call.phase = .begun ∧ w.locked = none) ∧
        w.setPhase p call w.checkClosed = w' := by simpa using hrest
    exact .checkClosed hcall hphase hfree
  | append p err =>
    obtain ⟨call,hcall,hrest⟩ := Option.bind_eq_some_iff.mp hstep
    obtain ⟨hphase,rfl⟩ : call.phase = .checked ∧ w.setPhase p call (w.append err) = w' := by
      simpa using hrest
    exact .append err hcall hphase
  | snapshot p order =>
    obtain ⟨call,hcall,hrest⟩ := Option.bind_eq_some_iff.mp hstep
    obtain ⟨⟨hphase,hfree,horder⟩,rfl⟩ : (call.phase = .appended ∧ w.locked = none ∧
        order.Perm (w.bus.subscribersOf call.msg.topic)) ∧
          w.setPhase p call (.sending order) = w' := by simpa using hrest
    exact .snapshot hcall hphase hfree horder
  | trySend p =>
    obtain ⟨call,hcall,hrest⟩ := Option.bind_eq_some_iff.mp hstep
    split at hrest
    · rename_i sub left hphase
      obtain ⟨s,hs,rfl⟩ := Option.map_eq_some_iff.mp hrest
      exact .trySend hcall hphase hs
    · simp at hrest
  | finish p =>
    obtain ⟨call,hcall,hrest⟩ := Option.bind_eq_some_iff.mp hstep
    obtain ⟨hphase,rfl⟩ : call.phase = .sending [] ∧
        w.setPhase p call (w.returning none) = w' := by simpa using hrest
    exact .finish hcall hphase
  | unsubscribe topic sub =>
    obtain ⟨⟨hfree,-⟩,rfl⟩ : (w.locked = none ∧ ∀ i ∈ sub, i < w.subs.length) ∧
        w.unsubscribe topic sub = w' := by simpa [step] using hstep
    exact .unsubscribe topic sub hfree
  | unsubscribed =>
    obtain ⟨sub,hlock,rfl⟩ := Option.map_eq_some_iff.mp hstep
    exact .unsubscribed hlock
  | closeBus order =>
    obtain ⟨⟨hfree,horder⟩,rfl⟩ : (w.locked = none ∧
        order.Perm (w.bus.subscribers.map Prod.snd)) ∧ w.closeBus order = w' := by
      simpa [step] using hstep
    exact .closeBus hfree horder
  | closeNext =>
    simp only [step] at hstep
    split at hstep
    · simp at hstep
    · rename_i sub closing hclosing
      rw [Option.some.injEq] at hstep
      exact hstep ▸ .closeNext hclosing
  | closeSubscriber sub =>
    obtain ⟨-,rfl⟩ : sub < w.subs.length ∧ w.close sub = w' := by simpa [step] using hstep
    exact .closeSubscriber sub
  | receive sub =>
    obtain ⟨s,hs,hrest⟩ := Option.bind_eq_some_iff.mp hstep
    obtain ⟨s',hreceive,rfl⟩ := Option.map_eq_some_iff.mp hrest
    exact .receive hs hreceive

theorem inv_step {w' : World} {label : Label} (h : Inv w) (hstep : step w label = some w') :
    Inv w' := by
  cases taken_of_step hstep with
  | subscribe topic hfree => exact inv_subscribe h topic
  | publish msg ctxErr => exact inv_publish h msg ctxErr
  | checkClosed hcall hphase hfree =>
    exact inv_quiet h hcall (fun i => by simp [Publish.MaySend,hphase]) (quiet_checkClosed w)
  | append err hcall hphase =>
    exact inv_quiet h hcall (fun i => by simp [Publish.MaySend,hphase]) (quiet_append w err)
  | snapshot hcall hphase hfree horder => exact inv_snapshot h hcall hphase hfree horder
  | trySend hcall hphase hs => exact inv_trySend h hcall hphase hs
  | finish hcall hphase => exact inv_finish h hcall hphase
  | unsubscribe topic sub hfree => exact inv_unsubscribe h hfree topic sub
  | unsubscribed hlock => exact inv_unsubscribed h hlock
  | closeBus hfree horder => exact inv_closeBus h _
  | closeNext hclosing => exact inv_closeNext h hclosing
  | closeSubscriber sub => exact inv_close h sub
  | receive hs hreceive => exact inv_receive h hs hreceive

end Steps

end Nimburion.PubSub
