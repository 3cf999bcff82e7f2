import Nimburion.HTTP.SSEChannels
import Nimburion.HTTP.SSEHandlers
import Nimburion.HTTP.SSEIndex

namespace Nimburion.HTTP.SSE
open Interaction GoTime GoText

namespace Hub

def clientsOn (s : Hub) (channel : String) : List Client :=
  (values (s.channelClients channel)).filterMap s.clientAt

-- the subscription forwards, or the request it lives by is over and has all the clients
def covers (s : Hub) (sub : ℕ) (clients : List Client) : Bool :=
  s.subs[sub]?.any fun x => x.opened && (x.ctx ∉ s.done || clients.all fun c => c.ctx = x.ctx)

-- no other request's client listens through a subscription of this context
def endable (s : Hub) (ctx : ℕ) : Bool :=
  s.busSubscribers.entries.all fun e =>
    !(s.subs[e.2]?.any fun x => x.ctx = ctx) || (s.clientsOn e.1).all fun c => c.ctx = ctx

end Hub

def steady (cfg : ManagerConfig) (c : Calls) (a : Step) : Bool :=
  match a with
  | .env ctx => c.shared.endable ctx
  | a => match c.next a with
      | some (_,.endRequest ctx,_) => c.shared.endable ctx
      | some (_,.register client,_) => c.shared.refuses (normalizeManagerConfig cfg) ||
          (((c.shared.connections.lookup client.id).bind c.shared.clientAt).all
              (fun c' => c'.channel = client.channel) &&
            (c.shared.busSubscribers.lookup client.channel).all fun sub =>
              c.shared.covers sub (client :: c.shared.clientsOn client.channel))
      | some (_,.recordSub channel sub,_) => (c.shared.busSubscribers.lookup channel).isSome ||
          (!(c.shared.clientsOn channel).isEmpty &&
            c.shared.covers sub (c.shared.clientsOn channel))
      | some (_,.remove _,x) => x.err.isNone
      | _ => true

structure SameBus (s s' : Hub) : Prop where
  connections : s'.connections = s.connections
  byChannel : s'.byChannel = s.byChannel
  busSubscribers : s'.busSubscribers = s.busSubscribers
  subs : s'.subs = s.subs
  done : s'.done = s.done

-- what an operation can do to the maps, the subscriptions and the contexts
inductive BusMoves (cfg : ManagerConfig) (s : Hub) : Event Ans → Hub → Prop
  | still (ev : Event Ans) (s' : Hub) : movesBus ev = false → SameBus s s' → BusMoves cfg s ev s'
  | lookup (channel : String) :
      BusMoves cfg s ⟨.lookupSub channel,(s.busSubscribers.lookup channel).isSome⟩ s
  | register (c : Client) : s.refuses cfg = false →
      BusMoves cfg s ⟨.register c,.ok (s.conns.length,
          cfg.hasBus && (s.busSubscribers.lookup c.channel).isNone)⟩ (s.joined c)
  | subscribe (ctx : ℕ) (channel : String) : ctx ∉ s.done →
      BusMoves cfg s ⟨.busSubscribe ctx channel,.ok s.subs.length⟩
        { s with subs := s.subs ++ [⟨channel,ctx,true⟩] }
  | record (channel : String) (sub : ℕ) : s.busSubscribers.lookup channel = none →
      BusMoves cfg s ⟨.recordSub channel sub,.ok ()⟩
        { s with busSubscribers := s.busSubscribers.insert channel sub }
  | spare (channel : String) (sub sub' : ℕ) (ans : Except GoError Unit) :
      s.busSubscribers.lookup channel = some sub' →
      BusMoves cfg s ⟨.recordSub channel sub,ans⟩ (s.closeSub sub)
  | absent (clientID : String) : (∀ ref, s.connections.lookup clientID = some ref →
      s.conns[ref]? = none) → BusMoves cfg s ⟨.remove clientID,none⟩ s
  | leave (clientID : String) (ref : ℕ) (conn : Conn) :
      s.connections.lookup clientID = some ref → s.conns[ref]? = some conn →
      (((s.channelClients conn.client.channel).erase clientID).entries = [] →
        s.busSubscribers.lookup conn.client.channel = none) →
      BusMoves cfg s ⟨.remove clientID,some (ref,none)⟩ (s.unindex clientID conn.client.channel)
  | drop (clientID : String) (ref : ℕ) (conn : Conn) (sub : ℕ) :
      s.connections.lookup clientID = some ref → s.conns[ref]? = some conn →
      ((s.channelClients conn.client.channel).erase clientID).entries = [] →
      s.busSubscribers.lookup conn.client.channel = some sub →
      BusMoves cfg s ⟨.remove clientID,some (ref,none)⟩
        { (s.unindex clientID conn.client.channel).closeSub sub with
          busSubscribers := s.busSubscribers.erase conn.client.channel }
  | takeAll (refs : List ℕ) : BusMoves cfg s ⟨.takeAll,refs⟩ s.takeAll
  | endRequest (ctx : ℕ) :
      BusMoves cfg s ⟨.endRequest ctx,()⟩ { s with done := ctx :: s.done }

section Effects

variable {cfg : ManagerConfig} {s s' : Hub} {op : Op} {x : Choice} {ans : Ans op}

theorem busMoves_remove (cfg : ManagerConfig) (s : Hub) (clientID : String) :
    BusMoves cfg s ⟨.remove clientID,(s.remove clientID none).1⟩ (s.remove clientID none).2 := by
  unfold Hub.remove
  split
  · rename_i hnone
    exact .absent clientID fun ref href => by rw [hnone] at href; cases href
  · rename_i ref href
    split
    · rename_i hnone
      refine .absent clientID fun ref' href' => ?_
      rw [href,Option.some.injEq] at href'
      exact href' ▸ hnone
    · rename_i conn hconn
      split_ifs with hempty
      · unfold Hub.dropSub
        split
        · rename_i hnone
          exact .leave clientID ref conn href hconn fun _ => hnone
        · rename_i sub hsub
          exact .drop clientID ref conn sub href hconn hempty hsub
      · exact .leave clientID ref conn href hconn fun h => absurd h hempty

theorem busMoves_record (cfg : ManagerConfig) (s : Hub) (channel : String) (sub : ℕ)
    (err : Option GoError) : BusMoves cfg s
      ⟨.recordSub channel sub,(s.recordSub channel sub err).1⟩ (s.recordSub channel sub err).2 := by
  unfold Hub.recordSub
  split
  · rename_i hnone
    exact .record channel sub hnone
  · rename_i sub' hsub
    split <;> exact .spare channel sub sub' _ hsub

theorem Effect.busMoves {ev : Event Ans} (h : Effect cfg s x ev s')
    (herr : ∀ id, ev.op = .remove id → x.err = none) : BusMoves cfg s ev s' := by
  cases h with
  | clients ev conns hbus _ => exact .still _ _ hbus ⟨rfl,rfl,rfl,rfl,rfl⟩
  | append | unlock => exact .still _ _ rfl ⟨rfl,rfl,rfl,rfl,rfl⟩
  | lookup channel => exact .lookup channel
  | register c hroom => exact .register c hroom
  | subscribe ctx channel hlive => exact .subscribe ctx channel hlive
  | record channel sub => exact busMoves_record cfg s channel sub x.err
  | remove clientID =>
    rw [herr clientID rfl]
    exact busMoves_remove cfg s clientID
  | takeAll refs _ => exact .takeAll refs
  | endRequest ctx => exact .endRequest ctx

theorem busMoves_exec (h : exec cfg s op x = some (ans,s'))
    (herr : ∀ id, op = .remove id → x.err = none) : BusMoves cfg s ⟨op,ans⟩ s' :=
  (effect_exec h).busMoves herr

end Effects

-- the condition on a single operation
def Hub.Ready (cfg : ManagerConfig) (s : Hub) (x : Choice) : Op → Prop
  | .endRequest ctx => s.endable ctx = true
  | .register client => s.refuses cfg = true ∨ (s.joinable client ∧
      ∀ sub, s.busSubscribers.lookup client.channel = some sub →
        s.covers sub (client :: s.clientsOn client.channel) = true)
  | .recordSub channel sub => s.busSubscribers.lookup channel = none →
      s.clientsOn channel ≠ [] ∧ s.covers sub (s.clientsOn channel) = true
  | .remove _ => x.err = none
  | _ => True

-- a recorded subscription is one of its channel, which has clients and is covered
structure Recorded (s : Hub) (channel : String) (sub : ℕ) : Prop where
  nonempty : ∃ id ref, (s.channelClients channel).lookup id = some ref
  named : s.subs[sub]?.map Sub.channel = some channel
  covers : s.covers sub (s.clientsOn channel) = true

section States

variable {cfg : ManagerConfig} {s s' : Hub} {ev : Event Ans} {channel : String} {sub : ℕ}

theorem ready_of_steady {c : Calls} {i : ℕ} {x : Choice} {t : Running} {op : Op}
    {k : Ans op → M (Option GoError)} (hindex : Indexed c.shared) (hq : steady cfg c (.exec i x) = true)
    (ht : c.threads[i]? = some t) (halive : t.alive = true) (hrest : t.rest = .call op k) :
    c.shared.Ready (normalizeManagerConfig cfg) x op := by
  simp only [steady,Config.next_exec ht halive hrest] at hq
  cases op with
  | endRequest ctx => exact hq
  | register client =>
    simp only [Bool.or_eq_true,Bool.and_eq_true,Option.all_eq_true] at hq
    refine hq.imp_right fun hjoin => ⟨fun ref href => ?_,hjoin.2⟩
    obtain ⟨c',hc',_⟩ := hindex.clientAt href
    have hsame := hjoin.1 c' (by rw [href,Option.bind_some,hc'])
    rw [hc',Option.map_some,of_decide_eq_true hsame]
  | recordSub channel sub =>
    intro hnone
    simpa [hnone] using hq
  | remove id => exact Option.isNone_iff_eq_none.mp hq
  | _ => trivial

theorem covers_iff {clients : List Client} : s.covers sub clients = true ↔
    ∃ x, s.subs[sub]? = some x ∧ x.opened = true ∧
      (x.ctx ∉ s.done ∨ ∀ c ∈ clients, c.ctx = x.ctx) := by
  unfold Hub.covers
  cases s.subs[sub]? with
  | none => simp
  | some x => simp

theorem covers_mono {clients clients' : List Client} (h : s.covers sub clients = true)
    (hsub : s'.subs[sub]? = s.subs[sub]?) (hdone : s'.done = s.done)
    (hclients : ∀ c ∈ clients', c ∈ clients) : s'.covers sub clients' = true := by
  rw [covers_iff] at h ⊢
  obtain ⟨x,hx,hopen,hall⟩ := h
  rw [hsub,hdone]
  exact ⟨x,hx,hopen,hall.imp_right fun hall c hc => hall c (hclients c hc)⟩

theorem mem_clientsOn {client : Client} : client ∈ s.clientsOn channel ↔
    ∃ id ref, (s.channelClients channel).lookup id = some ref ∧ s.clientAt ref = some client := by
  simp only [Hub.clientsOn,List.mem_filterMap,Hub.values,List.mem_map]
  constructor
  · rintro ⟨ref,⟨e,he,rfl⟩,hclient⟩
    exact ⟨e.1,e.2,AList.mem_lookup_iff.mpr he,hclient⟩
  · rintro ⟨id,ref,href,hclient⟩
    exact ⟨ref,⟨⟨id,ref⟩,AList.mem_lookup_iff.mp href,rfl⟩,hclient⟩

theorem Indexed.clientOn (h : Indexed s) {id : String} {ref : ℕ}
    (href : (s.channelClients channel).lookup id = some ref) :
    ∃ client, s.clientAt ref = some client ∧ client.id = id ∧ client.channel = channel := by
  obtain ⟨hconn,hchannel⟩ := (h.entry channel id ref).mp href
  obtain ⟨client,hclient,hid⟩ := h.clientAt hconn
  refine ⟨client,hclient,hid,?_⟩
  simpa [hclient] using hchannel

theorem clientsOn_sub (h : Indexed s)
    (hclients : ∀ ref c, s.clientAt ref = some c → s'.clientAt ref = some c)
    (hsub : ∀ id ref, (s'.channelClients channel).lookup id = some ref →
      (s.channelClients channel).lookup id = some ref) :
    ∀ client ∈ s'.clientsOn channel, client ∈ s.clientsOn channel := by
  intro client hclient
  obtain ⟨id,ref,href,hat⟩ := mem_clientsOn.mp hclient
  obtain ⟨client',hclient',_⟩ := h.clientOn (hsub id ref href)
  rw [hclients ref client' hclient',Option.some.injEq] at hat
  exact mem_clientsOn.mpr ⟨id,ref,hsub id ref href,hat ▸ hclient'⟩

theorem Recorded.mono (h : Recorded s channel sub) (hindex : Indexed s)
    (hclients : ∀ ref c, s.clientAt ref = some c → s'.clientAt ref = some c)
    (hmap : ∀ id ref, (s'.channelClients channel).lookup id = some ref →
      (s.channelClients channel).lookup id = some ref)
    (hsome : ∃ id ref, (s'.channelClients channel).lookup id = some ref)
    (hsub : s'.subs[sub]? = s.subs[sub]?) (hdone : s'.done = s.done) : Recorded s' channel sub :=
  ⟨hsome,by rw [hsub]; exact h.named,
    covers_mono h.covers hsub hdone (clientsOn_sub hindex hclients hmap)⟩

theorem subs_closeSub_ne {sub' : ℕ} (h : sub' ≠ sub) :
    (s.closeSub sub').subs[sub]? = s.subs[sub]? := by
  simp [Hub.closeSub,h]

theorem subs_takeAll (h : ∀ channel, s.busSubscribers.lookup channel ≠ some sub) :
    s.takeAll.subs[sub]? = s.subs[sub]? := by
  have hfold : ∀ (subs : List ℕ) (s : Hub), sub ∉ subs →
      (subs.foldl Hub.closeSub s).subs[sub]? = s.subs[sub]? := by
    intro subs
    induction subs with
    | nil => exact fun _ _ => rfl
    | cons sub' subs ih =>
      intro s hnot
      rw [List.mem_cons,not_or] at hnot
      exact (ih (s.closeSub sub') hnot.2).trans (subs_closeSub_ne (Ne.symm hnot.1))
  refine hfold _ s fun hmem => ?_
  obtain ⟨e,he,rfl⟩ := List.mem_map.mp hmem
  exact h e.1 (AList.mem_lookup_iff.mpr he)

theorem clientAt_joined (s : Hub) (c : Client) : (s.joined c).clientAt s.conns.length = some c := by
  simp [Hub.clientAt]

theorem Recorded.register (h : Recorded s channel sub) (hindex : Indexed s) {c : Client}
    (hclients : ∀ ref client, s.clientAt ref = some client → (s.joined c).clientAt ref = some client)
    (hcovers : channel = c.channel → s.covers sub (c :: s.clientsOn channel) = true) :
    Recorded (s.joined c) channel sub := by
  have hlookup := channelClients_index s c s.conns.length channel
  by_cases hchannel : channel = c.channel
  · refine ⟨⟨c.id,s.conns.length,?_⟩,h.named,covers_mono (hcovers hchannel) rfl rfl ?_⟩
    · exact (hlookup c.id).trans (if_pos ⟨hchannel,rfl⟩)
    · intro client hclient
      obtain ⟨id,ref,href,hat⟩ := mem_clientsOn.mp hclient
      have href' := (hlookup id).symm.trans href
      split_ifs at href' with hid
      · cases href'
        rw [clientAt_joined,Option.some.injEq] at hat
        exact hat ▸ List.mem_cons_self
      · obtain ⟨client',hclient',_⟩ := hindex.clientOn href'
        rw [hclients ref client' hclient',Option.some.injEq] at hat
        exact List.mem_cons_of_mem _ (mem_clientsOn.mpr ⟨id,ref,href',hat ▸ hclient'⟩)
  · have hsame : ∀ id, ((s.joined c).channelClients channel).lookup id =
        (s.channelClients channel).lookup id := fun id =>
      (hlookup id).trans (if_neg fun hboth => hchannel hboth.1)
    obtain ⟨id,ref,href⟩ := h.nonempty
    exact h.mono hindex hclients (fun id ref href => (hsame id).symm.trans href)
      ⟨id,ref,(hsame id).trans href⟩ rfl rfl

theorem Recorded.unindex (h : Recorded s channel sub) (hindex : Indexed s) {id channel' : String}
    (hstays : channel = channel' → ((s.channelClients channel).erase id).entries ≠ []) :
    Recorded (s.unindex id channel') channel sub := by
  have hlookup := channelClients_unindex s id channel' channel
  refine h.mono hindex (fun _ _ hc => hc) (fun id' ref href => ?_) ?_ rfl rfl
  · have href' := (hlookup id').symm.trans href
    split_ifs at href'
    exact href'
  · by_cases hchannel : channel = channel'
    · obtain ⟨e,he⟩ := List.exists_mem_of_ne_nil _ (hstays hchannel)
      have herase := AList.mem_lookup_iff.mpr he
      rw [Option.mem_def,lookup_erase_if] at herase
      split_ifs at herase with hid
      exact ⟨e.1,e.2,(hlookup e.1).trans (by rw [if_neg fun hboth => hid hboth.2]; exact herase)⟩
    · obtain ⟨id',ref,href⟩ := h.nonempty
      exact ⟨id',ref,(hlookup id').trans (by rw [if_neg fun hboth => hchannel hboth.1]; exact href)⟩

theorem Recorded.ended (h : Recorded s channel sub) {ctx : ℕ} (hend : s.endable ctx = true)
    (hsub : s.busSubscribers.lookup channel = some sub) :
    Recorded { s with done := ctx :: s.done } channel sub := by
  refine ⟨h.nonempty,h.named,?_⟩
  obtain ⟨x,hx,hopen,hall⟩ := covers_iff.mp h.covers
  refine covers_iff.mpr ⟨x,hx,hopen,?_⟩
  rcases hall with hlive | hall
  · by_cases hctx : x.ctx = ctx
    · have hentry := List.all_eq_true.mp hend ⟨channel,sub⟩ (AList.mem_lookup_iff.mp hsub)
      simp only [hx,Option.any_some,hctx,decide_true,Bool.not_true,Bool.false_or,
        List.all_eq_true,decide_eq_true_eq] at hentry
      exact .inr fun c hc => (hentry c hc).trans hctx.symm
    · exact .inl (by simp [hctx,hlive])
  · exact .inr hall

-- closing the subscription of a channel leaves the other channels' alone
theorem Recorded.drop (h : Recorded s channel sub) (hindex : Indexed s) {left : String} {sub' : ℕ}
    (hleft : Recorded s left sub') (hchannel : channel ≠ left) {id : String} {recorded : Map ℕ} :
    Recorded { (s.unindex id left).closeSub sub' with busSubscribers := recorded } channel sub := by
  have hold : Recorded (s.unindex id left) channel sub :=
    h.unindex hindex fun heq => absurd heq hchannel
  have hsubs : ((s.unindex id left).closeSub sub').subs[sub]? = s.subs[sub]? := by
    refine subs_closeSub_ne ?_
    rintro rfl
    have hnamed := h.named
    rw [hleft.named,Option.some.injEq] at hnamed
    exact hchannel hnamed.symm
  exact ⟨hold.nonempty,(congrArg (Option.map Sub.channel) hsubs).trans hold.named,
    covers_mono hold.covers hsubs rfl fun _ hc => hc⟩

theorem recorded_moves (hmoves : BusMoves cfg s ev s') (hindex : Indexed s)
    (hclients : ∀ ref c, s.clientAt ref = some c → s'.clientAt ref = some c) {x : Choice}
    (hready : s.Ready cfg x ev.op)
    (hpending : ∀ channel sub, ev.op = .recordSub channel sub →
      s.subs[sub]?.map Sub.channel = some channel ∧
      ∀ channel', s.busSubscribers.lookup channel' ≠ some sub)
    (h : ∀ channel sub, s.busSubscribers.lookup channel = some sub → Recorded s channel sub) :
    ∀ channel sub, s'.busSubscribers.lookup channel = some sub → Recorded s' channel sub := by
  intro channel sub hsub
  cases hmoves with
  | still ev s' _ hsame =>
    rw [hsame.busSubscribers] at hsub
    have hold := h channel sub hsub
    refine hold.mono hindex hclients ?_ ?_ (by rw [hsame.subs]) hsame.done
    · exact fun id ref href => by rwa [channelClients_congr hsame.byChannel] at href
    · rw [channelClients_congr hsame.byChannel]
      exact hold.nonempty
  | lookup channel' => exact h channel sub hsub
  | register c hroom =>
    obtain hfull | ⟨_,hcovers⟩ := hready
    · rw [hroom] at hfull
      cases hfull
    · refine (h channel sub hsub).register hindex hclients ?_
      rintro rfl
      exact hcovers sub hsub
  | subscribe ctx channel' hlive =>
    have hold := h channel sub hsub
    obtain ⟨y,hy,_⟩ := Option.map_eq_some_iff.mp hold.named
    refine hold.mono hindex hclients (fun _ _ href => href) hold.nonempty ?_ rfl
    exact List.getElem?_append_left (List.getElem?_eq_some_iff.mp hy).1
  | record channel' sub' hnone =>
    by_cases hchannel : channel = channel'
    · subst hchannel
      rw [AList.lookup_insert,Option.some.injEq] at hsub
      subst hsub
      obtain ⟨hsome,hcovers⟩ := hready hnone
      obtain ⟨client,hclient⟩ := List.exists_mem_of_ne_nil _ hsome
      obtain ⟨id,ref,href,_⟩ := mem_clientsOn.mp hclient
      exact ⟨⟨id,ref,href⟩,(hpending channel sub' rfl).1,hcovers⟩
    · rw [AList.lookup_insert_ne hchannel] at hsub
      have hold := h channel sub hsub
      exact ⟨hold.nonempty,hold.named,hold.covers⟩
  | spare channel' sub' sub'' ans hsome =>
    have hold := h channel sub hsub
    refine hold.mono hindex hclients (fun _ _ href => href) hold.nonempty (subs_closeSub_ne ?_) rfl
    rintro rfl
    exact (hpending channel' sub' rfl).2 channel hsub
  | absent id hnone => exact h channel sub hsub
  | leave id ref conn href hconn hempty =>
    refine (h channel sub hsub).unindex hindex ?_
    rintro rfl hnil
    have hnone : s.busSubscribers.lookup conn.client.channel = none := hempty hnil
    have hsome : s.busSubscribers.lookup conn.client.channel = some sub := hsub
    rw [hnone] at hsome
    cases hsome
  | drop id ref conn sub' href hconn hempty hsome =>
    dsimp only at hsub
    rw [lookup_erase_if] at hsub
    split_ifs at hsub with hchannel
    exact (h channel sub hsub).drop hindex (h _ sub' hsome) hchannel
  | takeAll refs =>
    have hnone : (∅ : Map ℕ).lookup channel = some sub := hsub
    rw [AList.lookup_empty] at hnone
    cases hnone
  | endRequest ctx => exact (h channel sub hsub).ended hready hsub

end States

end Nimburion.HTTP.SSE
