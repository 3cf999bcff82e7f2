import Nimburion.HTTP.SSEHub

namespace Nimburion.HTTP.SSE
open Interaction GoTime GoText

def movesIndex : Event Ans → Bool
  | ⟨.register _,.ok _⟩ => true
  | ⟨.remove _,some _⟩ => true
  | ⟨.takeAll,_⟩ => true
  | _ => false

-- what an operation can do to the two maps
inductive Indexes (s : Hub) : Event Ans → Map ℕ → Map (Map ℕ) → Prop
  | still (ev : Event Ans) : movesIndex ev = false → Indexes s ev s.connections s.byChannel
  | register (c : Client) (needSub : Bool) :
      Indexes s ⟨.register c,.ok (s.conns.length,needSub)⟩ (s.index c s.conns.length).connections
        (s.index c s.conns.length).byChannel
  | remove (clientID : String) (ref : ℕ) (conn : Conn) (err : Option GoError) :
      s.connections.lookup clientID = some ref → s.conns[ref]? = some conn →
      Indexes s ⟨.remove clientID,some (ref,err)⟩ (s.unindex clientID conn.client.channel).connections
        (s.unindex clientID conn.client.channel).byChannel
  | takeAll (refs : List ℕ) : refs.Perm (Hub.values s.connections) →
      Indexes s ⟨.takeAll,refs⟩ ∅ ∅

section Effects

variable {cfg : ManagerConfig} {s s' : Hub} {op : Op} {x : Choice} {ans : Ans op}

theorem dropSub_index (s : Hub) (channel : String) (err : Option GoError) :
    (s.dropSub channel err).2.connections = s.connections ∧
    (s.dropSub channel err).2.byChannel = s.byChannel := by
  unfold Hub.dropSub
  split
  · exact ⟨rfl,rfl⟩
  · split <;> exact ⟨rfl,rfl⟩

theorem recordSub_index (s : Hub) (channel : String) (sub : ℕ) (err : Option GoError) :
    (s.recordSub channel sub err).2.connections = s.connections ∧
    (s.recordSub channel sub err).2.byChannel = s.byChannel := by
  unfold Hub.recordSub
  split
  · exact ⟨rfl,rfl⟩
  · split <;> exact ⟨rfl,rfl⟩

theorem indexes_remove (s : Hub) (clientID : String) (err : Option GoError) :
    Indexes s ⟨.remove clientID,(s.remove clientID err).1⟩ (s.remove clientID err).2.connections
      (s.remove clientID err).2.byChannel := by
  unfold Hub.remove
  split
  · exact .still _ rfl
  · rename_i ref href
    split
    · exact .still _ rfl
    · rename_i conn hconn
      split_ifs with hempty
      · obtain ⟨hconnections,hchannel⟩ :=
          dropSub_index (s.unindex clientID conn.client.channel) conn.client.channel err
        dsimp only
        rw [hconnections,hchannel]
        exact .remove clientID ref conn _ href hconn
      · exact .remove clientID ref conn none href hconn

theorem movesIndex_of_movesBus {ev : Event Ans} (h : movesBus ev = false) : movesIndex ev = false := by
  obtain ⟨op,ans⟩ := ev
  cases op with
  | register c =>
    cases ans with
    | error e => rfl
    | ok registered => cases h
  | remove | takeAll => cases h
  | _ => rfl

theorem Effect.indexes {ev : Event Ans} (h : Effect cfg s x ev s') :
    Indexes s ev s'.connections s'.byChannel := by
  cases h with
  | clients ev conns hbus _ => exact .still _ (movesIndex_of_movesBus hbus)
  | register c _ => exact .register c _
  | record channel sub =>
    obtain ⟨hconnections,hchannel⟩ := recordSub_index s channel sub x.err
    rw [hconnections,hchannel]
    exact .still _ rfl
  | remove clientID => exact indexes_remove s clientID x.err
  | takeAll refs hperm => exact .takeAll refs hperm
  | append | unlock | lookup | subscribe | endRequest => exact .still _ rfl

theorem indexes_exec (h : exec cfg s op x = some (ans,s')) :
    Indexes s ⟨op,ans⟩ s'.connections s'.byChannel := (effect_exec h).indexes

end Effects

section Lookups

variable {s : Hub}

theorem channelClients_congr {s' : Hub} (h : s'.byChannel = s.byChannel) (channel : String) :
    s'.channelClients channel = s.channelClients channel := by
  rw [Hub.channelClients,h]
  rfl

theorem channelClients_index (s : Hub) (c : Client) (ref : ℕ) (channel id : String) :
    ((s.index c ref).channelClients channel).lookup id =
      if channel = c.channel ∧ id = c.id then some ref
      else (s.channelClients channel).lookup id := by
  unfold Hub.channelClients Hub.index
  by_cases hchannel : channel = c.channel
  · subst hchannel
    rw [AList.lookup_insert,Option.getD_some]
    by_cases hid : id = c.id
    · subst hid
      simp
    · simp [hid,Hub.channelClients]
  · simp [hchannel]

theorem connections_index (s : Hub) (c : Client) (ref : ℕ) (id : String) :
    (s.index c ref).connections.lookup id =
      if id = c.id then some ref else s.connections.lookup id := by
  unfold Hub.index
  by_cases hid : id = c.id
  · subst hid
    simp
  · simp [hid]

theorem lookup_erase_if {β : Type} (m : Map β) (id id' : String) :
    (m.erase id).lookup id' = if id' = id then none else m.lookup id' := by
  by_cases hid : id' = id
  · subst hid
    simp
  · simp [hid]

theorem channelClients_unindex (s : Hub) (id channel channel' id' : String) :
    ((s.unindex id channel).channelClients channel').lookup id' =
      if channel' = channel ∧ id' = id then none
      else (s.channelClients channel').lookup id' := by
  unfold Hub.unindex
  by_cases hchannel : channel' = channel
  · subst hchannel
    have hclients : Hub.channelClients { s with
        connections := s.connections.erase id
        byChannel := if ((s.channelClients channel').erase id).entries = [] then
            s.byChannel.erase channel'
          else s.byChannel.insert channel' ((s.channelClients channel').erase id) } channel' =
        (s.channelClients channel').erase id := by
      unfold Hub.channelClients
      dsimp only
      split_ifs with hempty
      · rw [AList.lookup_erase,Option.getD_none]
        exact AList.ext hempty.symm
      · rw [AList.lookup_insert,Option.getD_some]
    rw [hclients,lookup_erase_if]
    simp
  · unfold Hub.channelClients
    dsimp only
    split_ifs <;> simp [hchannel] <;> simp_all

end Lookups

-- the two maps agree, and a client stands under its own ID
structure Indexed (s : Hub) : Prop where
  entry : ∀ channel id ref, (s.channelClients channel).lookup id = some ref ↔
    s.connections.lookup id = some ref ∧ (s.clientAt ref).map Client.channel = some channel
  own : ∀ id ref, s.connections.lookup id = some ref → (s.clientAt ref).map Client.id = some id

-- the ID is free, or its client listens to the same channel
def Hub.joinable (s : Hub) (c : Client) : Prop :=
  ∀ ref, s.connections.lookup c.id = some ref → (s.clientAt ref).map Client.channel = some c.channel

section Agreement

variable {cfg : ManagerConfig} {s s' : Hub} {op : Op} {x : Choice} {ans : Ans op}
  {connections : Map ℕ} {byChannel : Map (Map ℕ)}

theorem Indexed.clientAt (h : Indexed s) {id : String} {ref : ℕ}
    (href : s.connections.lookup id = some ref) : ∃ c, s.clientAt ref = some c ∧ c.id = id :=
  Option.map_eq_some_iff.mp (h.own id ref href)

theorem Indexed.kept (h : Indexed s)
    (hclients : ∀ ref c, s.clientAt ref = some c → s'.clientAt ref = some c) (id : String) (ref : ℕ)
    (href : s.connections.lookup id = some ref) : s'.clientAt ref = s.clientAt ref := by
  obtain ⟨c,hc,_⟩ := h.clientAt href
  rw [hc,hclients ref c hc]

theorem Indexed.of_same (h : Indexed s) (hconnections : s'.connections = s.connections)
    (hchannel : s'.byChannel = s.byChannel)
    (hclients : ∀ ref c, s.clientAt ref = some c → s'.clientAt ref = some c) : Indexed s' := by
  have hsame := h.kept hclients
  constructor
  · intro channel id ref
    rw [channelClients_congr hchannel,hconnections,h.entry channel id ref]
    exact and_congr_right fun href => by rw [hsame id ref href]
  · intro id ref href
    rw [hconnections] at href
    rw [hsame id ref href]
    exact h.own id ref href

theorem Indexed.register (h : Indexed s) {c : Client} (hjoin : s.joinable c)
    (hconnections : s'.connections = (s.index c s.conns.length).connections)
    (hchannel : s'.byChannel = (s.index c s.conns.length).byChannel)
    (hnew : s'.clientAt s.conns.length = some c)
    (hclients : ∀ ref c, s.clientAt ref = some c → s'.clientAt ref = some c) : Indexed s' := by
  have hsame := h.kept hclients
  constructor
  · intro channel id ref
    rw [channelClients_congr hchannel,channelClients_index,hconnections,connections_index]
    by_cases hid : id = c.id
    · subst hid
      by_cases hsub : channel = c.channel
      · subst hsub
        simp only [and_self,if_true,Option.some.injEq]
        refine ⟨fun href => ⟨href,?_⟩,fun href => href.1⟩
        rw [← href,hnew]
        rfl
      · simp only [hsub,false_and,if_false,if_true,Option.some.injEq]
        constructor
        · intro hold
          obtain ⟨href,hold⟩ := (h.entry channel c.id ref).mp hold
          rw [hjoin ref href,Option.some.injEq] at hold
          exact absurd hold.symm hsub
        · rintro ⟨rfl,hold⟩
          rw [hnew,Option.map_some,Option.some.injEq] at hold
          exact absurd hold.symm hsub
    · simp only [hid,and_false,if_false]
      rw [h.entry channel id ref]
      exact and_congr_right fun href => by rw [hsame id ref href]
  · intro id ref href
    rw [hconnections,connections_index] at href
    split_ifs at href with hid
    · cases href
      rw [hnew,hid]
      rfl
    · rw [hsame id ref href]
      exact h.own id ref href

theorem Indexed.remove (h : Indexed s) {id : String} {ref : ℕ} {conn : Conn}
    (href : s.connections.lookup id = some ref) (hconn : s.conns[ref]? = some conn)
    (hconnections : s'.connections = (s.unindex id conn.client.channel).connections)
    (hchannel : s'.byChannel = (s.unindex id conn.client.channel).byChannel)
    (hclients : ∀ ref c, s.clientAt ref = some c → s'.clientAt ref = some c) : Indexed s' := by
  have hsame := h.kept hclients
  have herase : ∀ id', s'.connections.lookup id' =
      if id' = id then none else s.connections.lookup id' := by
    intro id'
    rw [hconnections]
    exact lookup_erase_if _ _ _
  constructor
  · intro channel id' ref'
    rw [channelClients_congr hchannel,channelClients_unindex,herase]
    by_cases hid : id' = id
    · subst hid
      simp only [and_true,if_true]
      constructor
      · intro hold
        split_ifs at hold with hsub
        obtain ⟨href',hold⟩ := (h.entry channel id' ref').mp hold
        rw [href,Option.some.injEq] at href'
        rw [← href',clientAt_of_mem hconn,Option.map_some,Option.some.injEq] at hold
        exact absurd hold.symm hsub
      · rintro ⟨hnone,_⟩
        cases hnone
    · simp only [hid,and_false,if_false]
      rw [h.entry channel id' ref']
      exact and_congr_right fun href => by rw [hsame id' ref' href]
  · intro id' ref' href'
    rw [herase] at href'
    split_ifs at href' with hid
    rw [hsame id' ref' href']
    exact h.own id' ref' href'

theorem indexed_empty (hconnections : s.connections = ∅) (hchannel : s.byChannel = ∅) :
    Indexed s := by
  have hclients : ∀ channel, s.channelClients channel = ∅ := by
    intro channel
    rw [Hub.channelClients,hchannel,AList.lookup_empty,Option.getD_none]
  constructor
  · intro channel id ref
    rw [hclients,hconnections]
    simp
  · intro id ref href
    rw [hconnections,AList.lookup_empty] at href
    cases href

theorem indexed_exec (h : Indexed s) (hx : exec cfg s op x = some (ans,s'))
    (hjoin : ∀ c, op = .register c → s.refuses cfg = true ∨ s.joinable c) : Indexed s' := by
  have hclients : ∀ ref c, s.clientAt ref = some c → s'.clientAt ref = some c := fun ref c hc =>
    moves_clientAt (moves_exec hx) hc
  have hindex := indexes_exec hx
  generalize hconnections : s'.connections = connections at hindex
  generalize hchannel : s'.byChannel = byChannel at hindex
  generalize hev : (⟨op,ans⟩ : Event Ans) = ev at hindex
  cases hindex with
  | still ev _ => exact h.of_same hconnections hchannel hclients
  | register c needSub =>
    cases hev
    obtain ⟨hroom,_,_,rfl⟩ := register_exec hx
    have hfree : s.joinable c := by
      rcases hjoin c rfl with hfull | hfree
      · exact absurd (of_decide_eq_true hfull) hroom
      · exact hfree
    exact h.register hfree hconnections hchannel (by simp [Hub.clientAt]) hclients
  | remove id ref conn err href hconn => exact h.remove href hconn hconnections hchannel hclients
  | takeAll refs _ => exact indexed_empty hconnections hchannel

end Agreement

end Nimburion.HTTP.SSE
