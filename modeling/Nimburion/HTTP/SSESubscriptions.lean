import Nimburion.HTTP.SSEBus

namespace Nimburion.HTTP.SSE
open Interaction GoTime GoText

-- the bus subscription a call has made and not yet recorded
def pendingSub : Trace → Option (ℕ × String × ℕ)
  | ⟨.busSubscribe ctx channel,.ok sub⟩ :: _ => some (ctx,channel,sub)
  | _ => none

def OwnClient (s : Hub) (call : Call) (ref : ℕ) : Prop :=
  ∃ ctx req rounds client, call = .stream ctx req rounds ∧ s.clientAt ref = some client ∧
    client.ctx = ctx ∧ client.channel = trimSpace req.channel

structure Tended (c : Calls) : Prop where
  handled : Machine.ThreadsMeet handled (fun _ tr _ => Left tr) c
  index : Indexed c.shared
  recorded : ∀ channel sub, c.shared.busSubscribers.lookup channel = some sub →
    Recorded c.shared channel sub
  owned : ∀ channel id ref, (c.shared.channelClients channel).lookup id = some ref →
    ∃ t ∈ c.threads, holds t.trace = some (id,ref)
  client : ∀ t ∈ c.threads, ∀ id ref, holds t.trace = some (id,ref) → OwnClient c.shared t.call ref
  ensured : ∀ t ∈ c.threads, ∀ channel id ref, holds t.trace = some (id,ref) →
    ensured t.trace = true → (c.shared.channelClients channel).lookup id = some ref →
    ∃ sub, c.shared.busSubscribers.lookup channel = some sub
  pending : ∀ t ∈ c.threads, ∀ ctx channel sub, pendingSub t.trace = some (ctx,channel,sub) →
    c.shared.subs[sub]? = some ⟨channel,ctx,true⟩ ∧
    ∀ channel', c.shared.busSubscribers.lookup channel' ≠ some sub
  distinct : ∀ (i j : ℕ) (t u : Running) ctx ctx' channel channel' sub, c.threads[i]? = some t →
    c.threads[j]? = some u → pendingSub t.trace = some (ctx,channel,sub) →
    pendingSub u.trace = some (ctx',channel',sub) → i = j

section Moves

variable {cfg : ManagerConfig} {s s' : Hub} {ev : Event Ans} {channel id : String} {ref sub : ℕ}

theorem trace_still (h : movesBus ev = false) (tr : Trace) : holds (ev :: tr) = holds tr ∧
    ensured (ev :: tr) = ensured tr ∧ pendingSub (ev :: tr) = none := by
  obtain ⟨op,ans⟩ := ev
  cases op with
  | register c =>
    cases ans with
    | error e => exact ⟨rfl,rfl,rfl⟩
    | ok registered => cases h
  | busSubscribe ctx channel =>
    cases ans with
    | error e => exact ⟨rfl,rfl,rfl⟩
    | ok sub => cases h
  | lookupSub | recordSub | remove | takeAll | endRequest => cases h
  | _ => exact ⟨rfl,rfl,rfl⟩

theorem entry_before (hmoves : BusMoves cfg s ev s')
    (h : (s'.channelClients channel).lookup id = some ref) :
    (s.channelClients channel).lookup id = some ref ∨
      ∃ c needSub, ev = ⟨.register c,.ok (ref,needSub)⟩ ∧ c.id = id ∧ ref = s.conns.length := by
  cases hmoves with
  | still ev s' _ hsame =>
    rw [channelClients_congr hsame.byChannel] at h
    exact .inl h
  | register c _ =>
    have hlookup := (channelClients_index s c s.conns.length channel id).symm.trans h
    split_ifs at hlookup with hboth
    · cases hlookup
      exact .inr ⟨c,_,rfl,hboth.2.symm,rfl⟩
    · exact .inl hlookup
  | leave id' ref' conn _ _ _ =>
    have hlookup := (channelClients_unindex s id' conn.client.channel channel id).symm.trans h
    split_ifs at hlookup
    exact .inl hlookup
  | drop id' ref' conn sub' _ _ _ _ =>
    have hlookup := (channelClients_unindex s id' conn.client.channel channel id).symm.trans h
    split_ifs at hlookup
    exact .inl hlookup
  | takeAll refs =>
    have hempty : (∅ : Map ℕ).lookup id = some ref := h
    rw [AList.lookup_empty] at hempty
    cases hempty
  | lookup | subscribe | record | spare | absent | endRequest => exact .inl h

theorem removed_entry (hmoves : BusMoves cfg s ev s') (hindex : Indexed s)
    (hev : ev.op = .remove id) : (s'.channelClients channel).lookup id ≠ some ref := by
  intro h
  have hentry : (s.channelClients channel).lookup id = some ref := by
    rcases entry_before hmoves h with hbefore | ⟨c,needSub,rfl,_⟩
    · exact hbefore
    · cases hev
  obtain ⟨hconn,_⟩ := (hindex.entry channel id ref).mp hentry
  obtain ⟨client,hclient,hid,hchannel⟩ := hindex.clientOn hentry
  cases hmoves with
  | still ev s' hstill _ =>
    obtain ⟨op,ans⟩ := ev
    cases hev
    cases hstill
  | absent id' hnone =>
    cases hev
    rw [Hub.clientAt,hnone ref hconn] at hclient
    cases hclient
  | leave id' ref' conn href hconn' _ =>
    cases hev
    rw [href,Option.some.injEq] at hconn
    subst hconn
    rw [clientAt_of_mem hconn',Option.some.injEq] at hclient
    have hlookup := (channelClients_unindex s id conn.client.channel channel id).symm.trans h
    rw [if_pos ⟨by rw [hclient,hchannel],rfl⟩] at hlookup
    cases hlookup
  | drop id' ref' conn sub' href hconn' _ _ =>
    cases hev
    rw [href,Option.some.injEq] at hconn
    subst hconn
    rw [clientAt_of_mem hconn',Option.some.injEq] at hclient
    have hlookup := (channelClients_unindex s id conn.client.channel channel id).symm.trans h
    rw [if_pos ⟨by rw [hclient,hchannel],rfl⟩] at hlookup
    cases hlookup
  | register | lookup | subscribe | record | spare | takeAll | endRequest => cases hev

theorem recorded_after (hmoves : BusMoves cfg s ev s') (hsub : s.busSubscribers.lookup channel = some sub)
    (h : (s'.channelClients channel).lookup id = some ref) :
    ∃ sub', s'.busSubscribers.lookup channel = some sub' := by
  cases hmoves with
  | still ev s' _ hsame => exact ⟨sub,by rw [hsame.busSubscribers,hsub]⟩
  | record channel' sub' hnone =>
    refine ⟨sub,(AList.lookup_insert_ne ?_).trans hsub⟩
    rintro rfl
    rw [hsub] at hnone
    cases hnone
  | drop id' ref' conn sub' href hconn hempty hsome =>
    by_cases hchannel : channel = conn.client.channel
    · subst hchannel
      have hlookup := (channelClients_unindex s id' _ conn.client.channel id).symm.trans h
      split_ifs at hlookup with hboth
      have herase : ((s.channelClients conn.client.channel).erase id').lookup id = some ref := by
        rw [lookup_erase_if,if_neg fun heq => hboth ⟨rfl,heq⟩]
        exact hlookup
      have hmem := AList.mem_lookup_iff.mp herase
      rw [hempty] at hmem
      cases hmem
    · exact ⟨sub,(AList.lookup_erase_ne hchannel).trans hsub⟩
  | takeAll refs =>
    have hempty : (∅ : Map ℕ).lookup id = some ref := h
    rw [AList.lookup_empty] at hempty
    cases hempty
  | register | lookup | subscribe | spare | absent | leave | endRequest => exact ⟨sub,hsub⟩

end Moves

section Runs

variable {cfg : ManagerConfig} {c c' : Calls} {i : ℕ} {x : Choice} {t : Running} {op : Op}
  {k : Ans op → M (Option GoError)} {ans : Ans op} {s' : Hub}

theorem register_pre {call : Call} {tr : Trace} {client : Client}
    (h : (handled call).pre tr (.register client)) : ∃ ctx req rounds,
      call = .stream ctx req rounds ∧ client.ctx = ctx ∧ client.channel = trimSpace req.channel ∧
      holds tr = none := by
  cases call with
  | stream ctx req rounds => exact ⟨ctx,req,rounds,rfl,h⟩
  | publish | forward | disconnect | close => exact absurd h (by simp [handled])

theorem lookupSub_pre {call : Call} {tr : Trace} {channel : String}
    (h : (handled call).pre tr (.lookupSub channel)) : ∃ ctx req rounds,
      call = .stream ctx req rounds ∧ channel = trimSpace req.channel := by
  cases call with
  | stream ctx req rounds => exact ⟨ctx,req,rounds,rfl,h⟩
  | publish | forward | disconnect | close => exact absurd h (by simp [handled])

theorem recordSub_pre {call : Call} {tr : Trace} {channel : String} {sub : ℕ}
    (h : (handled call).pre tr (.recordSub channel sub)) : ∃ ctx req rounds,
      call = .stream ctx req rounds ∧ channel = trimSpace req.channel ∧
      pendingSub tr = some (ctx,channel,sub) := by
  cases call with
  | stream ctx req rounds =>
    refine ⟨ctx,req,rounds,rfl,h.1,?_⟩
    cases tr with
    | nil => cases h.2
    | cons ev tr =>
      have hhead := h.2
      rw [List.head?_cons,Option.some.injEq] at hhead
      rw [hhead]
      rfl
  | publish | forward | disconnect | close => exact absurd h (by simp [handled])

-- a call that disconnects an ID holds no client of another ID
theorem held_id (h : Tended c) (ht : t ∈ c.threads) {id id' : String} {ref : ℕ}
    (hpre : (handled t.call).pre t.trace (.remove id)) (hheld : holds t.trace = some (id',ref)) :
    id' = id := by
  obtain ⟨ctx,req,rounds,client,hcall,_⟩ := h.client t ht id' ref hheld
  rw [hcall] at hpre
  obtain ⟨ref',href'⟩ := hpre
  rw [hheld,Option.some.injEq,Prod.mk.injEq] at href'
  exact href'.1

theorem owned_exec (h : Tended c) (ht : c.threads[i]? = some t)
    (hpre : (handled t.call).pre t.trace op)
    (hmoves : BusMoves cfg c.shared ⟨op,ans⟩ s') (channel id : String) (ref : ℕ)
    (hentry : (s'.channelClients channel).lookup id = some ref) :
    ∃ u ∈ c.threads.set i (stepped t op k ans), holds u.trace = some (id,ref) := by
  have hmem := List.mem_of_getElem? ht
  rcases entry_before hmoves hentry with hbefore | ⟨client,needSub,hev,rfl,_⟩
  · refine Machine.exists_mem_set (p := fun u : Running => holds u.trace = some (id,ref)) ht
      (fun hheld => ?_) (h.owned channel id ref hbefore)
    have hgone : ∀ id', op = .remove id' → False := by
      rintro id' rfl
      have heq := held_id h hmem hpre hheld
      subst heq
      exact removed_entry hmoves h.index rfl hentry
    cases hmoves with
    | still ev s' hstill _ => exact (trace_still hstill t.trace).1.trans hheld
    | register client _ =>
      obtain ⟨_,_,_,_,_,_,hnone⟩ := register_pre hpre
      rw [hheld] at hnone
      cases hnone
    | absent | leave | drop => exact absurd rfl (hgone _)
    | lookup | subscribe | record | spare | takeAll | endRequest => exact hheld
  · cases hev
    exact ⟨_,List.mem_set (List.getElem?_eq_some_iff.mp ht).1 _,rfl⟩

theorem client_exec (h : Tended c) (ht : c.threads[i]? = some t)
    (hpre : (handled t.call).pre t.trace op) (hmoves : BusMoves cfg c.shared ⟨op,ans⟩ s')
    (hclients : ∀ ref client, c.shared.clientAt ref = some client →
      s'.clientAt ref = some client) :
    ∀ u ∈ c.threads.set i (stepped t op k ans), ∀ id ref, holds u.trace = some (id,ref) →
      OwnClient s' u.call ref := by
  have hold : ∀ u ∈ c.threads, ∀ id ref, holds u.trace = some (id,ref) →
      OwnClient s' u.call ref := by
    intro u hu id ref hheld
    obtain ⟨ctx,req,rounds,client,hcall,hclient,hrest⟩ := h.client u hu id ref hheld
    exact ⟨ctx,req,rounds,client,hcall,hclients ref client hclient,hrest⟩
  refine Machine.forall_mem_set hold ?_
  intro id ref hheld
  rcases holds_cons hheld with ⟨client,needSub,hev,_⟩ | hbefore
  · cases hev
    obtain ⟨ctx,req,rounds,hcall,hctx,hchannel,_⟩ := register_pre hpre
    cases hmoves with
    | still _ _ hstill _ => cases hstill
    | register => exact ⟨ctx,req,rounds,client,hcall,clientAt_joined _ client,hctx,hchannel⟩
  · exact hold t (List.mem_of_getElem? ht) id ref hbefore

-- the channel of an entry is the one the handler that holds it asked for
theorem entry_channel {s : Hub} (hindex : Indexed s) {channel id : String} {ref ctx rounds : ℕ}
    {req : SubscriptionRequest} {call : Call} (hown : OwnClient s call ref)
    (hcall : call = .stream ctx req rounds)
    (hentry : (s.channelClients channel).lookup id = some ref) : channel = trimSpace req.channel := by
  obtain ⟨ctx',req',rounds',client,hcall',hclient,_,hchannel⟩ := hown
  obtain ⟨client',hclient',_,hsame⟩ := hindex.clientOn hentry
  rw [hclient,Option.some.injEq] at hclient'
  rw [hcall,Call.stream.injEq] at hcall'
  rw [← hsame,← hclient',hchannel,hcall'.2.1]

theorem ensured_exec (h : Tended c) (hbus : cfg.hasBus = true) (hindex' : Indexed s')
    (ht : c.threads[i]? = some t) (hpre : (handled t.call).pre t.trace op)
    (hmoves : BusMoves cfg c.shared ⟨op,ans⟩ s')
    (hclient' : ∀ u ∈ c.threads.set i (stepped t op k ans), ∀ id ref,
      holds u.trace = some (id,ref) → OwnClient s' u.call ref) :
    ∀ u ∈ c.threads.set i (stepped t op k ans), ∀ channel id ref, holds u.trace = some (id,ref) →
      ensured u.trace = true → (s'.channelClients channel).lookup id = some ref →
      ∃ sub, s'.busSubscribers.lookup channel = some sub := by
  have hmem := List.mem_of_getElem? ht
  have hself : stepped t op k ans ∈ c.threads.set i (stepped t op k ans) :=
    List.mem_set (List.getElem?_eq_some_iff.mp ht).1 _
  have hold : ∀ u ∈ c.threads, ∀ channel id ref, holds u.trace = some (id,ref) →
      ensured u.trace = true → (s'.channelClients channel).lookup id = some ref →
      ∃ sub, s'.busSubscribers.lookup channel = some sub := by
    intro u hu channel id ref hheld hensured hentry
    rcases entry_before hmoves hentry with hbefore | ⟨client,needSub,hev,_,rfl⟩
    · obtain ⟨sub,hsub⟩ := h.ensured u hu channel id ref hheld hensured hbefore
      exact recorded_after hmoves hsub hentry
    · obtain ⟨_,_,_,client',_,hclient',_⟩ := h.client u hu id _ hheld
      simp [Hub.clientAt] at hclient'
  refine Machine.forall_mem_set hold ?_
  intro channel id ref hheld hensured hentry
  have hown := hclient' _ hself id ref hheld
  cases hmoves with
  | still ev s' hstill hsame =>
    obtain ⟨hholds,hens,_⟩ := trace_still hstill t.trace
    exact hold t hmem channel id ref (hholds.symm.trans hheld) (hens.symm.trans hensured) hentry
  | lookup channel' =>
    obtain ⟨ctx,req,rounds,hcall,hchannel⟩ := lookupSub_pre hpre
    cases hsub : c.shared.busSubscribers.lookup channel' with
    | some sub =>
      rw [entry_channel hindex' hown hcall hentry,← hchannel]
      exact ⟨sub,hsub⟩
    | none =>
      rw [hsub] at hensured
      exact hold t hmem channel id ref hheld hensured hentry
  | register client _ =>
    obtain ⟨ctx,req,rounds,hcall,_,hchannel,_⟩ := register_pre hpre
    rw [entry_channel hindex' hown hcall hentry,← hchannel]
    have hfound : (!(cfg.hasBus && (c.shared.busSubscribers.lookup client.channel).isNone)) = true :=
      hensured
    cases hsub : c.shared.busSubscribers.lookup client.channel with
    | some sub => exact ⟨sub,hsub⟩
    | none => simp [hbus,hsub] at hfound
  | record channel' sub' hnone =>
    obtain ⟨ctx,req,rounds,hcall,hchannel,_⟩ := recordSub_pre hpre
    rw [entry_channel hindex' hown hcall hentry,← hchannel]
    exact ⟨sub',AList.lookup_insert _⟩
  | spare channel' sub' sub'' ans hsome =>
    obtain ⟨ctx,req,rounds,hcall,hchannel,_⟩ := recordSub_pre hpre
    cases ans with
    | ok =>
      rw [entry_channel hindex' hown hcall hentry,← hchannel]
      exact ⟨sub'',hsome⟩
    | error e => exact hold t hmem channel id ref hheld hensured hentry
  | absent | leave | drop => cases hheld
  | subscribe | takeAll | endRequest => exact hold t hmem channel id ref hheld hensured hentry

-- a subscription about to be recorded is untouched by what other calls do
theorem pending_other (h : Tended c) (ht : c.threads[i]? = some t)
    (hpre : (handled t.call).pre t.trace op) (hmoves : BusMoves cfg c.shared ⟨op,ans⟩ s') {j : ℕ}
    (hij : j ≠ i) {u : Running} (hu : c.threads[j]? = some u) {ctx : ℕ} {channel : String} {sub : ℕ}
    (hpending : pendingSub u.trace = some (ctx,channel,sub)) :
    s'.subs[sub]? = some ⟨channel,ctx,true⟩ ∧ ∀ channel', s'.busSubscribers.lookup channel' ≠ some sub := by
  obtain ⟨hsub,hfree⟩ := h.pending u (List.mem_of_getElem? hu) ctx channel sub hpending
  have hapart : ∀ channel' sub', op = .recordSub channel' sub' → sub' ≠ sub := by
    rintro channel' sub' rfl rfl
    obtain ⟨ctx',_,_,_,_,hpending'⟩ := recordSub_pre hpre
    exact hij (h.distinct j i u t ctx ctx' channel channel' sub' hu ht hpending hpending')
  cases hmoves with
  | still ev s' _ hsame =>
    rw [hsame.subs,hsame.busSubscribers]
    exact ⟨hsub,hfree⟩
  | subscribe ctx' channel' _ =>
    exact ⟨(List.getElem?_append_left (List.getElem?_eq_some_iff.mp hsub).1).trans hsub,hfree⟩
  | record channel' sub' hnone =>
    refine ⟨hsub,fun channel'' hlookup => ?_⟩
    by_cases hchannel : channel'' = channel'
    · subst hchannel
      rw [AList.lookup_insert,Option.some.injEq] at hlookup
      exact hapart channel'' sub' rfl hlookup
    · rw [AList.lookup_insert_ne hchannel] at hlookup
      exact hfree channel'' hlookup
  | spare channel' sub' sub'' ans hsome =>
    exact ⟨(subs_closeSub_ne (hapart channel' sub' rfl)).trans hsub,hfree⟩
  | drop id ref conn sub' href hconn hempty hsome =>
    refine ⟨(subs_closeSub_ne ?_).trans hsub,fun channel' hlookup => ?_⟩
    · rintro rfl
      exact hfree _ hsome
    · dsimp only at hlookup
      rw [lookup_erase_if] at hlookup
      split_ifs at hlookup
      exact hfree channel' hlookup
  | takeAll refs =>
    refine ⟨(subs_takeAll hfree).trans hsub,fun channel' hlookup => ?_⟩
    have hempty : (∅ : Map ℕ).lookup channel' = some sub := hlookup
    rw [AList.lookup_empty] at hempty
    cases hempty
  | lookup | register | absent | leave | endRequest => exact ⟨hsub,hfree⟩

theorem pending_self (h : Tended c) (hmoves : BusMoves cfg c.shared ⟨op,ans⟩ s') {tr : Trace}
    {ctx : ℕ} {channel : String} {sub : ℕ}
    (hpending : pendingSub (⟨op,ans⟩ :: tr) = some (ctx,channel,sub)) :
    sub = c.shared.subs.length ∧ s'.subs[sub]? = some ⟨channel,ctx,true⟩ ∧
      ∀ channel', s'.busSubscribers.lookup channel' ≠ some sub := by
  cases hmoves with
  | still ev s' hstill _ =>
    rw [(trace_still hstill tr).2.2] at hpending
    cases hpending
  | subscribe ctx' channel' _ =>
    cases hpending
    refine ⟨rfl,by simp,fun channel'' hlookup => ?_⟩
    obtain ⟨x,hx,_⟩ := Option.map_eq_some_iff.mp (h.recorded channel'' _ hlookup).named
    simp at hx
  | lookup | register | record | spare | absent | leave | drop | takeAll | endRequest => cases hpending

theorem pending_exec (h : Tended c) (ht : c.threads[i]? = some t)
    (hpre : (handled t.call).pre t.trace op) (hmoves : BusMoves cfg c.shared ⟨op,ans⟩ s') :
    ∀ u ∈ c.threads.set i (stepped t op k ans), ∀ ctx channel sub,
      pendingSub u.trace = some (ctx,channel,sub) → s'.subs[sub]? = some ⟨channel,ctx,true⟩ ∧
      ∀ channel', s'.busSubscribers.lookup channel' ≠ some sub := by
  intro u hu ctx channel sub hpending
  obtain ⟨j,hj⟩ := List.getElem?_of_mem hu
  rcases Machine.of_getElem?_set hj with ⟨rfl,rfl⟩ | ⟨hij,hj⟩
  · exact (pending_self h hmoves hpending).2
  · exact pending_other h ht hpre hmoves hij hj hpending

theorem distinct_exec (h : Tended c) (hmoves : BusMoves cfg c.shared ⟨op,ans⟩ s') (j₁ j₂ : ℕ)
    (u₁ u₂ : Running) (ctx₁ ctx₂ : ℕ) (channel₁ channel₂ : String) (sub : ℕ)
    (hu₁ : (c.threads.set i (stepped t op k ans))[j₁]? = some u₁)
    (hu₂ : (c.threads.set i (stepped t op k ans))[j₂]? = some u₂)
    (hpending₁ : pendingSub u₁.trace = some (ctx₁,channel₁,sub))
    (hpending₂ : pendingSub u₂.trace = some (ctx₂,channel₂,sub)) : j₁ = j₂ := by
  have hfresh : ∀ (j : ℕ) (u : Running) ctx channel, c.threads[j]? = some u →
      pendingSub u.trace = some (ctx,channel,sub) → sub ≠ c.shared.subs.length := by
    intro j u ctx channel hj hpending
    have hsub := (h.pending u (List.mem_of_getElem? hj) ctx channel sub hpending).1
    exact Nat.ne_of_lt (List.getElem?_eq_some_iff.mp hsub).1
  rcases Machine.of_getElem?_set hu₁ with ⟨rfl,rfl⟩ | ⟨_,hold₁⟩
  · rcases Machine.of_getElem?_set hu₂ with ⟨rfl,rfl⟩ | ⟨_,hold₂⟩
    · rfl
    · exact absurd (pending_self h hmoves hpending₁).1 (hfresh _ _ _ _ hold₂ hpending₂)
  · rcases Machine.of_getElem?_set hu₂ with ⟨rfl,rfl⟩ | ⟨_,hold₂⟩
    · exact absurd (pending_self h hmoves hpending₂).1 (hfresh _ _ _ _ hold₁ hpending₁)
    · exact h.distinct j₁ j₂ u₁ u₂ ctx₁ ctx₂ channel₁ channel₂ sub hold₁ hold₂ hpending₁ hpending₂

theorem tended_exec (h : Tended c) (hbus : cfg.hasBus = true)
    (hq : steady cfg c (.exec i x) = true) (ht : c.threads[i]? = some t) (halive : t.alive = true)
    (hrest : t.rest = .call op k)
    (hx : exec (normalizeManagerConfig cfg) c.shared op x = some (ans,s'))
    (hmeets : Machine.ThreadsMeet handled (fun _ tr _ => Left tr)
      (⟨s',c.threads.set i (stepped t op k ans)⟩ : Calls)) :
    Tended ⟨s',c.threads.set i (stepped t op k ans)⟩ := by
  have hbus' : (normalizeManagerConfig cfg).hasBus = true := hbus
  have hready := ready_of_steady h.index hq ht halive hrest
  have hmem := List.mem_of_getElem? ht
  have hmeet := h.handled t hmem
  rw [hrest,Prog.meets_call] at hmeet
  have hpre := hmeet.1
  have hclients : ∀ ref client, c.shared.clientAt ref = some client →
      s'.clientAt ref = some client := fun ref client hc => moves_clientAt (moves_exec hx) hc
  have hmoves : BusMoves (normalizeManagerConfig cfg) c.shared ⟨op,ans⟩ s' :=
    busMoves_exec hx fun id hop => by subst hop; exact hready
  have hindex' : Indexed s' := by
    refine indexed_exec h.index hx fun client hop => ?_
    subst hop
    exact hready.imp_right And.left
  have hclient' := client_exec (k := k) h ht hpre hmoves hclients
  refine ⟨hmeets,hindex',?_,owned_exec h ht hpre hmoves,hclient',
    ensured_exec h hbus' hindex' ht hpre hmoves hclient',pending_exec h ht hpre hmoves,
    distinct_exec h hmoves⟩
  refine recorded_moves hmoves h.index hclients hready (fun channel sub hop => ?_) h.recorded
  have hop : op = .recordSub channel sub := hop
  subst hop
  obtain ⟨ctx,_,_,_,_,hpending⟩ := recordSub_pre hpre
  obtain ⟨hsub,hfree⟩ := h.pending t hmem ctx channel sub hpending
  exact ⟨by rw [hsub]; rfl,hfree⟩

theorem tended_start {u : Running} (h : Tended c)
    (hmeets : Machine.ThreadsMeet handled (fun _ tr _ => Left tr)
      ({ c with threads := c.threads ++ [u] } : Calls)) (hu : u.trace = []) :
    Tended { c with threads := c.threads ++ [u] } := by
  have hnew : ∀ {p : Running → Prop}, (∀ t ∈ c.threads, p t) → p u →
      ∀ t ∈ c.threads ++ [u], p t := by
    intro p hall hp t ht
    rcases List.mem_append.mp ht with ht | ht
    · exact hall t ht
    · exact List.mem_singleton.mp ht ▸ hp
  have hback : ∀ (j : ℕ) (t : Running) (p : ℕ × String × ℕ), (c.threads ++ [u])[j]? = some t →
      pendingSub t.trace = some p → c.threads[j]? = some t := by
    intro j t p hj hpending
    rcases Nat.lt_or_ge j c.threads.length with hlt | hge
    · rwa [List.getElem?_append_left hlt] at hj
    · rw [List.getElem?_append_right hge] at hj
      rw [List.mem_singleton.mp (List.mem_of_getElem? hj),hu] at hpending
      cases hpending
  refine ⟨hmeets,h.index,h.recorded,?_,hnew h.client ?_,hnew h.ensured ?_,hnew h.pending ?_,?_⟩
  · intro channel id ref hentry
    obtain ⟨t,ht,hheld⟩ := h.owned channel id ref hentry
    exact ⟨t,List.mem_append_left _ ht,hheld⟩
  · simp [hu,holds]
  · simp [hu,holds]
  · simp [hu,pendingSub]
  · intro j₁ j₂ u₁ u₂ ctx₁ ctx₂ channel₁ channel₂ sub hu₁ hu₂ hpending₁ hpending₂
    exact h.distinct j₁ j₂ u₁ u₂ ctx₁ ctx₂ channel₁ channel₂ sub (hback _ _ _ hu₁ hpending₁)
      (hback _ _ _ hu₂ hpending₂) hpending₁ hpending₂

theorem tended_crash (h : Tended c) (ht : c.threads[i]? = some t)
    (hmeets : Machine.ThreadsMeet handled (fun _ tr _ => Left tr)
      ({ c with threads := c.threads.set i { t with alive := false } } : Calls)) :
    Tended { c with threads := c.threads.set i { t with alive := false } } := by
  have hmem := List.mem_of_getElem? ht
  have hback : ∀ (j : ℕ) (u : Running),
      (c.threads.set i { t with alive := false })[j]? = some u →
      ∃ u', c.threads[j]? = some u' ∧ u'.trace = u.trace := by
    intro j u hj
    rcases Machine.of_getElem?_set hj with ⟨rfl,rfl⟩ | ⟨_,hold⟩
    · exact ⟨t,ht,rfl⟩
    · exact ⟨u,hold,rfl⟩
  refine ⟨hmeets,h.index,h.recorded,?_,Machine.forall_mem_set h.client (h.client t hmem),
    Machine.forall_mem_set h.ensured (h.ensured t hmem),
    Machine.forall_mem_set h.pending (h.pending t hmem),?_⟩
  · exact fun channel id ref hentry =>
      Machine.exists_mem_set (p := fun u : Running => holds u.trace = some (id,ref)) ht
        (fun hheld => hheld) (h.owned channel id ref hentry)
  · intro j₁ j₂ u₁ u₂ ctx₁ ctx₂ channel₁ channel₂ sub hu₁ hu₂ hpending₁ hpending₂
    obtain ⟨v₁,hv₁,htr₁⟩ := hback _ _ hu₁
    obtain ⟨v₂,hv₂,htr₂⟩ := hback _ _ hu₂
    exact h.distinct j₁ j₂ v₁ v₂ ctx₁ ctx₂ channel₁ channel₂ sub hv₁ hv₂ (htr₁ ▸ hpending₁)
      (htr₂ ▸ hpending₂)

theorem tended_step {a : Step} (h : Tended c) (hbus : cfg.hasBus = true)
    (hq : steady cfg c a = true) (hs : (manager cfg).step c a = some c') : Tended c' := by
  have hmeets : Machine.ThreadsMeet handled (fun _ tr _ => Left tr) c' :=
    h.handled.step (m := manager cfg) handled_program (fun _ _ _ _ _ _ _ => trivial) hs
  obtain ⟨call,rfl,rfl⟩ | ⟨i,x,t,op,k,ans,s',rfl,ht,halive,hrest,hx,rfl⟩ | ⟨i,t,rfl,ht,rfl⟩ |
    ⟨e,rfl,rfl⟩ := (manager cfg).step_cases hs
  · exact tended_start h hmeets rfl
  · exact tended_exec h hbus hq ht halive hrest hx hmeets
  · exact tended_crash h ht hmeets
  · refine ⟨hmeets,h.index.of_same rfl rfl fun _ _ hc => hc,?_,h.owned,h.client,h.ensured,h.pending,
      h.distinct⟩
    exact fun channel sub hsub => (h.recorded channel sub hsub).ended hq hsub

end Runs

-- no call is in progress, nor the end of a request that still has its client
def tranquil (c : Calls) : Bool :=
  c.threads.all fun t => !inCall t && ((holds t.trace).isNone || match t.call with
    | .stream ctx .. => decide (ctx ∉ c.shared.done)
    | _ => true)

structure Followed (s : Hub) : Prop where
  live : ∀ channel id ref, (s.channelClients channel).lookup id = some ref →
    ∃ sub, s.busSubscribers.lookup channel = some sub ∧ s.forwards sub = true ∧
      s.subs[sub]?.map Sub.channel = some channel
  idle : ∀ channel, (s.channelClients channel).entries = [] → s.busSubscribers.lookup channel = none

theorem ensured_of_tranquil {c : Calls} (h : Tended c) (hquiet : tranquil c = true) {t : Running}
    (ht : t ∈ c.threads) {held : String × ℕ} (hheld : holds t.trace = some held) :
    ensured t.trace = true := by
  obtain ⟨id,ref⟩ := held
  obtain ⟨ctx,req,rounds,_,hcall,_⟩ := h.client t ht id ref hheld
  have hmeet := h.handled t ht
  have hidle := List.all_eq_true.mp hquiet t ht
  simp only [inCall,Bool.and_eq_true] at hidle
  cases hrest : t.rest with
  | ret a =>
    rw [hrest] at hmeet
    exact Or.resolve_left hmeet (by rw [hheld]; simp)
  | fail e =>
    rw [hrest] at hmeet
    exact Or.resolve_left hmeet (by rw [hheld]; simp)
  | call op k =>
    rw [hrest,Prog.meets_call,hcall] at hmeet
    have hbetween : between op = true := by simpa [hrest] using hidle.1
    cases op with
    | await | writeEvent => exact hmeet.1
    | endRequest ctx' =>
      have hnone : holds t.trace = none := hmeet.1
      rw [hheld] at hnone
      cases hnone
    | _ => cases hbetween

theorem followed_of_tranquil {c : Calls} (h : Tended c) (hquiet : tranquil c = true) :
    Followed c.shared := by
  constructor
  · intro channel id ref hentry
    obtain ⟨t,ht,hheld⟩ := h.owned channel id ref hentry
    obtain ⟨sub,hsub⟩ := h.ensured t ht channel id ref hheld (ensured_of_tranquil h hquiet ht hheld)
      hentry
    have hrecorded := h.recorded channel sub hsub
    refine ⟨sub,hsub,?_,hrecorded.named⟩
    obtain ⟨ctx,req,rounds,client,hcall,hclient,hctx,_⟩ := h.client t ht id ref hheld
    have hlive : ctx ∉ c.shared.done := by
      have hidle := List.all_eq_true.mp hquiet t ht
      simp only [hheld,hcall,Option.isNone_some,Bool.false_or,Bool.and_eq_true,
        decide_eq_true_eq] at hidle
      exact hidle.2
    obtain ⟨x,hx,hopen,hall⟩ := covers_iff.mp hrecorded.covers
    have hforward : x.ctx ∉ c.shared.done := by
      rcases hall with hforward | hall
      · exact hforward
      · rw [← hall client (mem_clientsOn.mpr ⟨id,ref,hentry,hclient⟩),hctx]
        exact hlive
    simp [Hub.forwards,hx,hopen,hforward]
  · intro channel hempty
    cases hsub : c.shared.busSubscribers.lookup channel with
    | none => rfl
    | some sub =>
      obtain ⟨id,ref,href⟩ := (h.recorded channel sub hsub).nonempty
      have hmem := AList.mem_lookup_iff.mp href
      rw [hempty] at hmem
      cases hmem

theorem bus_subscription_follows_clients (cfg : ManagerConfig) (hbus : cfg.hasBus = true)
    (acts : List Step)
    (h : (manager cfg).Along (fun c a => steady cfg c a = true) acts ⟨newManager,[]⟩) (c : Calls)
    (hrun : (manager cfg).run acts ⟨newManager,[]⟩ = some c) (hquiet : tranquil c = true) :
    Followed c.shared := by
  have hinit : Tended ⟨newManager,[]⟩ := by
    refine ⟨by simp [Machine.ThreadsMeet],indexed_empty rfl rfl,?_,?_,by simp,by simp,by simp,by simp⟩
    · simp [newManager]
    · simp [newManager,Hub.channelClients]
  refine followed_of_tranquil ?_ hquiet
  exact (manager cfg).run_invariant (I := Tended)
    (fun c a c' htended hq hs => tended_step htended hbus hq hs) hinit h hrun

def busConfig : ManagerConfig := { defaultManagerConfig with hasBus := true }

-- two clients of one channel, the first of which makes the subscription
def shared : List Step :=
  [.start (.stream 0 ⟨"first","news","","",""⟩ 1),.exec 0 .ok,.exec 0 .ok,.exec 0 .ok,.exec 0 .ok,
    .exec 0 .ok,.start (.stream 1 ⟨"second","news","","",""⟩ 1),.exec 1 .ok,.exec 1 .ok]

def leaves (i : ℕ) : List Step :=
  [.env i,.exec i (.wake .done),.exec i .ok,.exec i .ok,.exec i .ok,.exec i .ok]

theorem bus_subscription_follows_clients_when_second_leaves :
    (manager busConfig).Along (fun c a => steady busConfig c a = true) (shared ++ leaves 1)
      ⟨newManager,[]⟩ ∧
    ∃ c, (manager busConfig).run (shared ++ leaves 1) ⟨newManager,[]⟩ = some c ∧ tranquil c = true ∧
      (c.shared.channelClients "news").lookup "first" = some 0 ∧ Followed c.shared := by
  have hsteady : (manager busConfig).Along (fun c a => steady busConfig c a = true)
      (shared ++ leaves 1) ⟨newManager,[]⟩ := by decide +kernel
  have hrun : ((manager busConfig).run (shared ++ leaves 1) ⟨newManager,[]⟩).map (fun c =>
      (tranquil c,(c.shared.channelClients "news").lookup "first")) = some (true,some 0) := by
    decide +kernel
  obtain ⟨c,hc,heq⟩ := Option.map_eq_some_iff.mp hrun
  obtain ⟨hquiet,hentry⟩ := Prod.mk.inj heq
  exact ⟨hsteady,c,hc,hquiet,hentry,
    bus_subscription_follows_clients busConfig rfl _ hsteady c hc hquiet⟩

theorem subscription_ends_with_first_client :
    ∃ c, (manager busConfig).run (shared ++ leaves 0) ⟨newManager,[]⟩ = some c ∧ tranquil c = true ∧
      ¬ Followed c.shared := by
  have hrun : ((manager busConfig).run (shared ++ leaves 0) ⟨newManager,[]⟩).map (fun c =>
      (tranquil c,(c.shared.channelClients "news").lookup "second",
        c.shared.busSubscribers.lookup "news",c.shared.forwards 0)) =
      some (true,some 1,some 0,false) := by decide +kernel
  obtain ⟨c,hc,heq⟩ := Option.map_eq_some_iff.mp hrun
  simp only [Prod.mk.injEq] at heq
  obtain ⟨hquiet,hentry,hsub,hdead⟩ := heq
  refine ⟨c,hc,hquiet,fun h => ?_⟩
  obtain ⟨sub,hsub',hforwards,_⟩ := h.live "news" "second" 1 hentry
  rw [hsub,Option.some.injEq] at hsub'
  rw [← hsub',hdead] at hforwards
  cases hforwards

end Nimburion.HTTP.SSE
